import RigExpr.Graph.Kind
import RigExpr.Graph.Signal
import RigExpr.Operator
import RigExpr.RotateOrder
import RigExpr.Table

/-!
# Graphs

A graph is a list of nodes. A node reads signals from outputs of other nodes,
each under a key of its own, and its parameters say the rest.
-/

namespace RigExpr

/-- An output of a node. -/
structure Plug where
  /-- The id of the node. -/
  node : String
  /-- The name of the output. -/
  outlet : String := Kind.mainOutlet
  deriving Repr, DecidableEq

/-- The plug as text: the node, and the output if it is not the default one. -/
def Plug.text (p : Plug) : String :=
  if p.outlet = Kind.mainOutlet then p.node else p.node ++ "." ++ p.outlet

instance : ToString Plug := ⟨Plug.text⟩

/-- The parameters of a node, each of use to some kinds. -/
structure Params where
  /-- The value of a constant, or of an input for which the host gives none. -/
  value : Option Signal := none
  /-- The name of an input or output towards the host. -/
  name : Option String := none
  /-- What a condition compares by. -/
  comparison : Option Comparison := none
  /-- Which component to take. -/
  index : Option Nat := none
  /-- The order of a rotation. -/
  order : Option RotateOrder := none
  deriving Repr

/-- A node of a graph. -/
structure Node where
  id : String
  kind : Kind
  params : Params := {}
  /-- The outputs that the node reads, by key. -/
  inputs : Table String Plug := {}

/-- A graph. -/
structure Graph where
  nodes : List Node := []

namespace Graph

/-- The first node with this id. -/
def node? (g : Graph) (id : String) : Option Node := g.nodes.find? fun n => n.id = id

/-- The last node with this id. -/
def last? (g : Graph) (id : String) : Option Node := g.nodes.reverse.find? fun n => n.id = id

/-- The names of the outputs towards the host, in the order of the nodes. -/
def outputNames (g : Graph) : List String :=
  (g.nodes.filter fun n => n.kind = .output).filterMap fun n => n.params.name

/-- The number of nodes of a kind. -/
def count (g : Graph) (kind : Kind) : Nat := (g.nodes.filter fun n => n.kind = kind).length

end Graph

end RigExpr
