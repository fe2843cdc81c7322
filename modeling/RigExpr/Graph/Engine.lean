import RigExpr.Action
import RigExpr.Graph.Evaluate
import RigExpr.Graph.Order

/-!
# Running a graph

An engine holds the signals of the last evaluation, and the values that the
host stages for the next one. Time goes in epochs: a value is staged for the
epoch to come, every evaluation starts a new epoch, and a value counts in its
own epoch only.

* `Engine.evaluate` evaluates a graph.
* `Engine.stage` stages a value.
-/

namespace RigExpr

/-- A value staged for an epoch. -/
structure Staged where
  value : Signal
  epoch : Nat
  deriving Repr

/-- The state between evaluations. -/
structure Engine where
  /-- The signals at the outputs of each node. -/
  outputs : Table String (Table String Signal) := {}
  /-- The signals handed to the host, by name. -/
  results : Table String Signal := {}
  /-- The values staged by the host, by name. -/
  staged : Table String Staged := {}
  epoch : Nat := 0

namespace Engine

/-- The last epoch, which is its own successor. -/
def lastEpoch : Nat := UInt64.size - 1

/-- The epoch after this one. -/
def next (epoch : Nat) : Nat := min (epoch + 1) lastEpoch

/-- Start a new epoch. Only the values staged for it remain. -/
def advance (r : Engine) : Engine :=
  let epoch := next r.epoch
  { r with epoch, staged := r.staged.filterValues fun s => s.epoch = epoch }

/-- Stage a value for the next epoch; what was staged under the name before is
    returned. -/
def stage (r : Engine) (name : String) (value : Signal) : Option Staged × Engine :=
  (r.staged.get? name,
   { r with staged := r.staged.insert name { value, epoch := next r.epoch } })

/-- The value staged for this epoch. -/
def input? (r : Engine) (name : String) : Option Staged :=
  (r.staged.get? name).filter fun s => s.epoch = r.epoch

/-- The signal at an output of a node. -/
def value? (r : Engine) (p : Plug) : Option Signal :=
  (r.outputs.get? p.node).bind fun outlets => outlets.get? p.outlet

/-- The signal handed to the host under this name. -/
def result? (r : Engine) (name : String) : Option Signal := r.results.get? name

/-- The signals at the plugs, by key. -/
def read (r : Engine) : List (String × Plug) → Except GraphError (List (String × Signal))
  | [] => .ok []
  | (key, p) :: rest =>
    match r.value? p with
    | some s => do return (key, s) :: (← r.read rest)
    | none => .error (.missingOutput p.node p.outlet)

/-- What a node is given. -/
def inlet (r : Engine) (n : Node) : Except GraphError Inlet := do
  let signals ← r.read n.inputs.entries
  let staged := (n.params.name.bind r.input?).map (·.value)
  return { signals := ⟨signals⟩, staged }

/-- The engine once a node has been evaluated to these outputs. -/
def record (r : Engine) (n : Node) (outlets : Table String Signal) : Engine :=
  let results :=
    match n.kind, n.params.name, outlets.get? Kind.mainOutlet with
    | .output, some name, some s => r.results.insert name s
    | _, _, _ => r.results
  { r with results, outputs := r.outputs.insert n.id outlets }

/-- The engine after the evaluation of a node. -/
def evaluateNode (r : Engine) (n : Node) : Except GraphError Engine := do
  let given ← r.inlet n
  match n.outputs given with
  | .ok outlets => return r.record n outlets
  | .error fault => .error (.evaluation n.id fault)

/-- Evaluate nodes one after the other. The first one without a value ends it, and
    the nodes before it keep theirs. -/
def run (r : Engine) : List Node → Except GraphError Unit × Engine
  | [] => (.ok (), r)
  | n :: rest =>
    match r.evaluateNode n with
    | .ok r' => r'.run rest
    | .error e => (.error e, r)

/-- The engine at the start of an evaluation: in a new epoch, with no signals. -/
def begin (r : Engine) : Engine := { r.advance with outputs := {}, results := {} }

/-- Evaluate a graph in a new epoch, its nodes in topological order. -/
def evaluate (g : Graph) : Action GraphError Engine Unit := do
  Action.change begin
  let order ← Action.ofExcept g.order
  Action.say .trace ("evaluating " ++ toString order.length ++ " node(s)")
  Action.ofFunction fun s =>
    let (outcome, left) := s.state.run (order.filterMap g.last?)
    (outcome, { s with state := left })

end Engine

end RigExpr
