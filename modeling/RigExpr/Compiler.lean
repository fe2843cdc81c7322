import RigExpr.Evaluation
import RigExpr.Expr.Parse
import RigExpr.Json.Record

/-!
# Compilation

A compiler holds a backend and compiles one source after the other into it.
Bindings and cache start afresh each time; the backend goes on.

* `Compiler.emit` runs a source, `Compiler.validate` reports on it, and
  `Compiler.compile` does either.
* `Compiler.compileTokens` takes an expression in post-order as it is.
-/

namespace RigExpr

/-- The settings of a compiler. -/
structure Config where
  /-- How deeply expressions may nest. -/
  maxDepth : Nat := 256
  deriving Repr, DecidableEq

namespace Config

/-- The settings in a JSON value, where what is missing has its default. -/
def ofJson? (j : Json) : Option Config := do
  let fields ← j.record? ["max_depth"]
  let maxDepth ← fields.optional 0 Json.toNat?
  return { maxDepth := maxDepth.getD 256 }

/-- The settings in a JSON text. -/
def read? (text : String) : Option Config := do ofJson? (← Json.read? text)

/-- Some nesting has to be allowed. -/
def check (c : Config) : Except CompileError Unit :=
  if c.maxDepth = 0 then .error .zeroDepth else .ok ()

end Config

/-- A compiler, after the last compilation. -/
structure Compiler (β H : Type) where
  config : Config := {}
  evaluation : Evaluation β H

/-- What a compilation yields. -/
inductive Product (H : Type)
  /-- The value of the expression, none for an assignment. -/
  | value (v : Slot H)
  /-- The use made of the bindings. -/
  | report (r : Report)

namespace Compiler

/-- A compilation. -/
abbrev Run (β H : Type) := Action CompileError (Compiler β H)

variable {β H ε : Type}

/-- A compiler for a backend, unless the settings make no sense. -/
def new (backend : β) (config : Config) : Except CompileError (Compiler β H) := do
  config.check
  return { config, evaluation := { backend } }

/-- The number of applications in the last compilation. -/
def cacheSize (c : Compiler β H) : Nat := c.evaluation.cache.size

/-- A step of an evaluation as part of a compilation. -/
def onEvaluation {α : Type} (a : Evaluation.Step β H α) : Run β H α :=
  a.zoom (·.evaluation) (fun s e => { s with evaluation := e }) id

/-- The post-order of a source, with negated numbers folded. -/
def prepare (source : String) : Run β H (List Token) := do
  let limit := (← Action.state).config.maxDepth
  match Statement.parse limit source with
  | .error e => throw (.source e)
  | .ok statement =>
    let tokens := statement.tokens
    Action.say .trace ("parsed: " ++ Token.streamText tokens)
    let folded := Token.foldNegation tokens
    Action.say .trace ("folded: " ++ Token.streamText folded)
    return folded

variable [ToString H] [Backend β H ε]

/-- Start afresh with these bindings. -/
def reset (bindings : List (String × Value H)) : Run β H Unit :=
  Action.change fun s =>
    { s with
      evaluation :=
        { backend := s.evaluation.backend, bindings := Bindings.empty.register bindings } }

/-- Evaluate an expression in post-order. -/
def run (mode : Mode) (tokens : List Token) : Run β H (Slot H) := do
  let value ← onEvaluation (Evaluation.evaluate mode tokens)
  let left := (← Action.state).evaluation.left
  unless left.isEmpty do
    Action.say .warn
      (toString left.length ++ " token(s) left unconsumed: " ++ Token.streamText left.reverse)
  match mode, value with
  | .emit, some v =>
    some <$> onEvaluation (Evaluation.onBackend (Primitive.onBackend (Backend.conclude v)))
  | _, value => return value

/-- What the mode asks for. -/
def product (mode : Mode) (value : Slot H) : Run β H (Product H) := do
  match mode with
  | .emit => return .value value
  | .validate => return .report (← Action.state).evaluation.bindings.report

/-- Compile a source. -/
def compile (mode : Mode) (source : String) (bindings : List (String × Value H)) :
    Run β H (Product H) := do
  reset bindings
  let count := (← Action.state).evaluation.bindings.size
  Action.say .debug
    ("compile (" ++ mode.text ++ ", " ++ toString count ++ " binding(s)): " ++ source)
  product mode (← run mode (← prepare source))

/-- Compile an expression in post-order, as it is. -/
def compileTokens (mode : Mode) (tokens : List Token) (bindings : List (String × Value H)) :
    Run β H (Product H) := do
  reset bindings
  Action.say .debug ("compile stream (" ++ mode.text ++ "): " ++ Token.streamText tokens)
  product mode (← run mode tokens)

/-- The value of a source. -/
def emit (source : String) (bindings : List (String × Value H)) : Run β H (Slot H) := do
  reset bindings
  Action.say .debug ("emit: " ++ source)
  run .emit (← prepare source)

/-- The use that a source makes of the bindings. -/
def validate (source : String) (bindings : List (String × Value H)) : Run β H Report := do
  reset bindings
  Action.say .debug ("validate: " ++ source)
  let _ ← run .validate (← prepare source)
  return (← Action.state).evaluation.bindings.report

end Compiler

end RigExpr
