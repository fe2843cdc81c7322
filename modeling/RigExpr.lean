import RigExpr.Action
import RigExpr.Backend
import RigExpr.Bindings
import RigExpr.Calculator
import RigExpr.CompileError
import RigExpr.Compiler
import RigExpr.Evaluation
import RigExpr.Expr.Basic
import RigExpr.Expr.Error
import RigExpr.Expr.Parse
import RigExpr.Function
import RigExpr.Graph.Basic
import RigExpr.Graph.Builder
import RigExpr.Graph.Engine
import RigExpr.Graph.Error
import RigExpr.Graph.Evaluate
import RigExpr.Graph.Json
import RigExpr.Graph.Kind
import RigExpr.Graph.Noise
import RigExpr.Graph.Order
import RigExpr.Graph.Rotation
import RigExpr.Graph.Signal
import RigExpr.Graph.Variadic
import RigExpr.Json.Basic
import RigExpr.Json.Numeral
import RigExpr.Json.Reader
import RigExpr.Json.Record
import RigExpr.Lexeme.Basic
import RigExpr.Lexeme.Scan
import RigExpr.Number.Arithmetic
import RigExpr.Number.Binary64
import RigExpr.Number.Decimal
import RigExpr.Number.Text
import RigExpr.Operation
import RigExpr.Operator
import RigExpr.Primitive
import RigExpr.Proofs.Evaluation.Recursive
import RigExpr.RotateOrder
import RigExpr.Table
import RigExpr.Text.Quoted
import RigExpr.Text.Unprintable
import RigExpr.Token
import RigExpr.Value
import RigExpr.Proofs.Grammar.Derivation
import RigExpr.Proofs.Grammar.Soundness
import RigExpr.Proofs.Grammar.Completeness
import RigExpr.Proofs.Grammar.Sources
import RigExpr.Proofs.Grammar.Limit
import RigExpr.Proofs.Grammar.Lookahead
import RigExpr.Proofs.Lexeme.Blank
import RigExpr.Proofs.Lexeme.Spelling
import RigExpr.Proofs.Lexeme.Tiling
import RigExpr.Proofs.Lexeme.Printing
import RigExpr.Proofs.Grammar.Failure
import RigExpr.Proofs.Number.Interval
import RigExpr.Proofs.Number.Text
import RigExpr.Proofs.Signature
import RigExpr.Proofs.Value
import RigExpr.Proofs.Table
import RigExpr.Proofs.Bindings
import RigExpr.Proofs.Grammar.Tokens
import RigExpr.Proofs.Action
import RigExpr.Proofs.Evaluation.Simulation
import RigExpr.Proofs.Calculator
import RigExpr.Proofs.Evaluation.Cache
import RigExpr.Proofs.Expr.Folded
import RigExpr.Proofs.Expr.Signal
import RigExpr.Proofs.Graph.Growth
import RigExpr.Proofs.Graph.Interface
import RigExpr.Proofs.Graph.Operations
import RigExpr.Proofs.Compiler.Validation
import RigExpr.Proofs.Graph.Emission
import RigExpr.Proofs.Graph.Runnable
import RigExpr.Proofs.Graph.Rig
import RigExpr.Proofs.Graph.Step
import RigExpr.Proofs.Graph.Coverage
import RigExpr.Proofs.Graph.Permutation
import RigExpr.Proofs.Graph.Prefix
import RigExpr.Proofs.Graph.Shapes
import RigExpr.Proofs.Compiler.Agreement
import RigExpr.Proofs.Graph.Epoch
import RigExpr.Proofs.Graph.Cycles
import RigExpr.Proofs.Descriptions
import RigExpr.Proofs.Evaluation.Congruence
import RigExpr.Proofs.Compiler.Report
import RigExpr.Proofs.Evaluation.History
import RigExpr.Proofs.Evaluation.Emissions
import RigExpr.Proofs.Compiler.Invocations
import RigExpr.Proofs.Compiler.Emission
import RigExpr.Proofs.Evaluation.Growth
import RigExpr.Proofs.Evaluation.Upkeep
import RigExpr.Proofs.Graph.Operands
import RigExpr.Proofs.Graph.Construction
import RigExpr.Proofs.Graph.Frame
import RigExpr.Proofs.Graph.Requests
import RigExpr.Proofs.Graph.Wiring
import RigExpr.Proofs.Graph.Readings
import RigExpr.Proofs.Graph.Access
import RigExpr.Proofs.Graph.Numbered
import RigExpr.Proofs.Evaluation.Lockstep
import RigExpr.Proofs.Compiler.Assignment
import RigExpr.Proofs.Compiler.Folding
import RigExpr.Proofs.Graph.Reordering
import RigExpr.Proofs.Bindings.History
import RigExpr.Proofs.Signature.Components
import RigExpr.Proofs.Json.Reading
import RigExpr.Proofs.Json.Numeral
import RigExpr.Proofs.Graph.Json
import RigExpr.Proofs.Graph.Reloading
import RigExpr.Proofs.Bindings.Latest
import RigExpr.Proofs.Graph.Keys
import RigExpr.Proofs.Graph.KeyOrder
import RigExpr.Proofs.Graph.Sharing
