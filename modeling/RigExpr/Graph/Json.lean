import RigExpr.Graph.Basic
import RigExpr.Json.Record

/-!
# Graphs in JSON

A graph is written as an object with its nodes. Parameters that a node does not
have are left out, and numbers that are not finite are written as null.

* `Graph.toJson` and `Graph.ofJson?` convert, `Graph.write` and `Graph.read?` go
  all the way to text.
-/

namespace RigExpr

namespace Signal

/-- A number in JSON, null if it is not finite. -/
def jsonOfFloat (x : Float) : Json :=
  match Numeral.ofFloat? x with
  | some n => .number n
  | none => .null

/-- The signal in JSON. -/
def toJson : Signal → Json
  | float x => jsonOfFloat x
  | bool b => .bool b
  | vector xs => .array (xs.map jsonOfFloat)

/-- The signal of a number, a truth value or an array of numbers. -/
def ofJson? : Json → Option Signal
  | .number n => n.toFloat?.map float
  | .bool b => some (bool b)
  | .array items => (items.mapM Json.toFloat?).map vector
  | _ => none

end Signal

namespace Plug

/-- The plug in JSON. -/
def toJson (p : Plug) : Json :=
  .object [("node_id", .string p.node), ("output_key", .string p.outlet)]

/-- The plug with this node and, if it is written, this output. -/
def ofJson? (j : Json) : Option Plug := do
  let fields ← j.record? ["node_id", "output_key"]
  let node ← fields.required 0 Json.toText?
  let outlet ← fields.optional 1 Json.toText?
  return { node, outlet := outlet.getD Kind.mainOutlet }

end Plug

namespace Params

/-- A parameter, if the node has it. -/
def member {α : Type} (name : String) (write : α → Json) : Option α → List (String × Json)
  | some a => [(name, write a)]
  | none => []

/-- The parameters in JSON. -/
def toJson (p : Params) : Json :=
  .object
    (member "value" Signal.toJson p.value ++ member "name" .string p.name ++
      member "comparison" (fun c => .string c.name) p.comparison ++
      member "index" (fun n => .number (Numeral.ofNat n)) p.index ++
      member "order" (fun o => .string o.keyword) p.order)

/-- The parameters that are written and not null. -/
def ofJson? (j : Json) : Option Params := do
  let fields ← j.record? ["value", "name", "comparison", "index", "order"]
  let value ← fields.nullable 0 Signal.ofJson?
  let name ← fields.nullable 1 Json.toText?
  let comparison ← fields.nullable 2 fun j => j.toWord?.bind Comparison.ofName?
  let index ← fields.nullable 3 Json.toNat?
  let order ← fields.nullable 4 fun j => j.toWord?.bind RotateOrder.ofKeyword?
  return { value, name, comparison, index, order }

end Params

namespace Node

/-- The node in JSON. -/
def toJson (n : Node) : Json :=
  .object
    [("id", .string n.id), ("type", .string n.kind.name), ("params", n.params.toJson),
     ("inputs", .object (n.inputs.entries.map fun e => (e.1, e.2.toJson)))]

/-- The connections of an object, the last one under each key. -/
def inputsOfJson? : Json → Option (Table String Plug)
  | .object members => do
    let pairs ← members.mapM fun m => do return (m.1, ← Plug.ofJson? m.2)
    return Table.ofList pairs
  | _ => none

/-- The node with this id and kind and what else is written. -/
def ofJson? (j : Json) : Option Node := do
  let fields ← j.record? ["id", "type", "params", "inputs"]
  let id ← fields.required 0 Json.toText?
  let kind ← fields.required 1 fun j => j.toWord?.bind Kind.ofName?
  let params ← fields.optional 2 Params.ofJson?
  let inputs ← fields.optional 3 inputsOfJson?
  return { id, kind, params := params.getD {}, inputs := inputs.getD {} }

end Node

namespace Graph

/-- The graph in JSON. -/
def toJson (g : Graph) : Json := .object [("nodes", .array (g.nodes.map Node.toJson))]

/-- The graph with the nodes that are written. -/
def ofJson? (j : Json) : Option Graph := do
  let fields ← j.record? ["nodes"]
  let items ← fields.required 0 Json.toItems?
  return { nodes := ← items.mapM Node.ofJson? }

/-- The graph as a text of many lines. -/
def write (g : Graph) : String := g.toJson.pretty 0

/-- The graph of a text. -/
def read? (text : String) : Option Graph := do ofJson? (← Json.read? text)

end Graph

/-! ## Equality

Two graphs are the same if their nodes are the same one by one: numbers as
numbers, and connections by key. -/

/-- Whether two parameters are the same value, or both not there. -/
def Params.sameValue : Option Signal → Option Signal → Bool
  | some s, some t => s.same t
  | none, none => true
  | _, _ => false

/-- Whether two nodes are the same. -/
def Node.same (m n : Node) : Bool :=
  m.id = n.id && m.kind = n.kind &&
    Params.sameValue m.params.value n.params.value &&
    m.params.name = n.params.name && m.params.comparison = n.params.comparison &&
    m.params.index = n.params.index && m.params.order = n.params.order &&
    m.inputs.size = n.inputs.size &&
    m.inputs.entries.all fun e => n.inputs.get? e.1 = some e.2

/-- Whether two graphs are the same. -/
def Graph.same (g h : Graph) : Bool :=
  g.nodes.length = h.nodes.length && (List.zipWith Node.same g.nodes h.nodes).all id

end RigExpr
