import RigExpr.Graph.Basic
import RigExpr.Graph.Error

/-!
# Evaluation order

The order in which the nodes of a graph are evaluated: each one after the nodes
it reads from, and otherwise as they stand in the graph. A node waits for as
many signals as it has connections; a node that waits for none is ready, and
evaluating it settles one signal of every connection that reads from it.

* `Graph.order` orders the ids of the nodes.
-/

namespace RigExpr.Graph

/-- The ids of the nodes, each once. -/
def ids (g : Graph) : List String :=
  g.nodes.foldl (fun seen n => if n.id ∈ seen then seen else seen ++ [n.id]) []

/-- The first connection to a node that is not there. -/
def dangling? (g : Graph) : Option (Node × Plug) :=
  let known := g.ids
  g.nodes.findSome? fun n =>
    (n.inputs.values.find? fun p => p.node ∉ known).map fun p => (n, p)

/-- The number of signals that each id waits for. -/
def waits (g : Graph) : Table String Nat :=
  g.nodes.foldl
    (fun t n => t.insert n.id ((t.get? n.id).getD 0 + n.inputs.size))
    Table.empty

/-- The ids that read from the node, once for each connection. -/
def readers (g : Graph) (id : String) : List String :=
  g.nodes.flatMap fun n => (n.inputs.values.filter fun p => p.node = id).map fun _ => n.id

/-- Settle one signal of each reader in turn: the numbers of signals still waited
    for, and the readers that now wait for none.

    A number that is zero already stays so, and its reader is not ready once
    more. This only comes up where an id that waits for nothing stands for two
    nodes: it is then taken twice, and its readers are settled twice. An unsigned
    counter would go below zero there. A debug build, which checks for overflow,
    panics; a release build wraps around to a number that no run counts down to
    zero, so that the reader does not become ready again either. -/
def settle : List String → Table String Nat → Table String Nat × List String
  | [], waits => (waits, [])
  | id :: rest, waits =>
    match waits.get? id with
    | some (n + 1) =>
      let (waits, ready) := settle rest (waits.insert id n)
      (waits, if n = 0 then id :: ready else ready)
    | _ => settle rest waits

/-- Take the ready ids in turn, adding those that become ready at the end. `fuel`
    bounds their number; the number of nodes is enough. -/
def drain (g : Graph) : (fuel : Nat) → (ready : List String) → Table String Nat → List String
  | 0, _, _ => []
  | _ + 1, [], _ => []
  | fuel + 1, id :: ready, waits =>
    let (waits, more) := settle (g.readers id) waits
    id :: g.drain fuel (ready ++ more) waits

/-- The ids of the nodes that are ready from the start. -/
def sources (g : Graph) : List String :=
  let waits := g.waits
  (g.nodes.map (·.id)).filter fun id => waits.get? id = some 0

/-- The ids in evaluation order. -/
def order (g : Graph) : Except GraphError (List String) :=
  match g.dangling? with
  | some (n, p) => .error (.unknownNode n.id p.node)
  | none =>
    let order := g.drain g.nodes.length g.sources g.waits
    if order.length = g.ids.length then .ok order else .error .cycle

end RigExpr.Graph
