/-!
# Errors of a graph

Why a graph has no evaluation order, and why a node cannot be evaluated. The
wording stands in `GraphError.message`.
-/

namespace RigExpr

/-- Why a node has no value. -/
inductive NodeFault
  | noComparison
  | eulerSize
  | noQuaternion
  | slerpStart
  | slerpEnd
  | translateSize
  | rotateSize
  | scaleSize
  | matrixSize
  | noOptions
  deriving Repr, DecidableEq

/-- The fault in words. -/
def NodeFault.text : NodeFault → String
  | noComparison => "missing comparison"
  | eulerSize => "euler input must have 3 components"
  | noQuaternion => "cannot build a quaternion from these inputs"
  | slerpStart => "slerp start is not a rotation"
  | slerpEnd => "slerp end is not a rotation"
  | translateSize => "translate must have 3 components"
  | rotateSize => "rotate must be Euler angles or a quaternion"
  | scaleSize => "scale must have 1 or 3 components"
  | matrixSize => "matrix needs 9 or 16 components"
  | noOptions => "switch has no options"

/-- Why the evaluation of a graph fails. -/
inductive GraphError
  /-- The nodes have no evaluation order. -/
  | cycle
  /-- A node reads from a node that is not there. -/
  | unknownNode (node source : String)
  /-- A node is asked for an output it does not have. -/
  | missingOutput (node outlet : String)
  /-- A node has no value. -/
  | evaluation (node : String) (fault : NodeFault)
  deriving Repr, DecidableEq

/-- The error in words. -/
def GraphError.message : GraphError → String
  | cycle => "cycle detected in graph"
  | unknownNode node source =>
    "node '" ++ node ++ "' reads from unknown node '" ++ source ++ "'"
  | missingOutput node outlet => "node '" ++ node ++ "' has no output '" ++ outlet ++ "'"
  | evaluation node fault => "node '" ++ node ++ "': " ++ fault.text

end RigExpr
