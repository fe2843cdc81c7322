/-!
# Actions

An action reads and changes a state, writes lines to a log, and returns a
result or fails. What it did before it failed stays done.

* `Action.zoom` runs an action on a part of a larger state.
-/

namespace RigExpr

/-- How much a line of the log matters. -/
inductive Level
  | trace | debug | warn
  deriving Repr, DecidableEq

/-- A line of the log. -/
structure Line where
  level : Level
  text : String
  deriving Repr, DecidableEq

/-- A state, with the lines written so far. -/
structure Logged (σ : Type) where
  state : σ
  log : List Line := []

/-- A computation on the state `σ` that may fail with an `ε`. -/
abbrev Action (ε σ : Type) := ExceptT ε (StateM (Logged σ))

namespace Action

variable {ε ε' σ τ α : Type}

/-- The state. -/
def state : Action ε σ σ := do return (← get).state

/-- Change the state. -/
def change (f : σ → σ) : Action ε σ Unit :=
  modify fun s => { s with state := f s.state }

/-- Write a line to the log. -/
def say (level : Level) (text : String) : Action ε σ Unit :=
  modify fun s => { s with log := s.log ++ [⟨level, text⟩] }

/-- Run the action on a state: its outcome, and what it leaves. -/
def runOn (a : Action ε σ α) (s : Logged σ) : Except ε α × Logged σ :=
  StateT.run (ExceptT.run a) s

/-- An action given by what it does to a state. -/
def ofFunction (f : Logged σ → Except ε α × Logged σ) : Action ε σ α :=
  ExceptT.mk (m := StateM _) f

/-- An action on a part of the state, with its errors turned into others. -/
def zoom (part : σ → τ) (put : σ → τ → σ) (explain : ε → ε') (a : Action ε τ α) :
    Action ε' σ α :=
  ofFunction fun s =>
    let (outcome, left) := a.runOn { state := part s.state, log := s.log }
    (outcome.mapError explain, { state := put s.state left.state, log := left.log })

/-- The outcome of a computation without effects. -/
def ofExcept (outcome : Except ε α) : Action ε σ α :=
  match outcome with
  | .ok a => pure a
  | .error e => throw e

end Action

end RigExpr
