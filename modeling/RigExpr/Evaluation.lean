import RigExpr.Bindings
import RigExpr.Primitive

/-!
# Evaluation

The tokens of an expression are evaluated from the last to the first. An
operator becomes a frame that collects its operands; a value goes to the
innermost frame, which may complete it and those around it. So evaluation
recurses on the tokens and needs no call stack for operators.

Each application goes through a cache: the backend runs an application at most
once per signature. In validate mode nothing is applied, and evaluation only
finds out which identifiers are used.

* `Frame.feed` says what a frame does with its next operand.
* `Evaluation.resolve` evaluates the last token with its operands, and
  `Evaluation.evaluate` an expression in post-order.
-/

namespace RigExpr

/-- Whether a compilation runs the backend or only traces identifiers. -/
inductive Mode
  | emit | validate
  deriving Repr, DecidableEq

/-- The mode as the log shows it. -/
def Mode.text : Mode → String
  | emit => "Emit"
  | validate => "Validate"

/-- What an operand comes to: no value in validate mode, or for an assignment. -/
abbrev Slot (H : Type) := Option (Value H)

/-- An operator that waits for operands, which arrive from the last to the
    first. -/
inductive Frame (H : Type)
  /-- Waits for `missing + 1` more operands in front of `operands`. -/
  | collect (p : Primitive) (missing : Nat) (operands : List (Slot H))
  /-- A choice that waits for its second branch. -/
  | otherwise
  /-- A choice that waits for its first branch. -/
  | consequent (ifFalse : Slot H)
  /-- A choice that waits for its comparison. -/
  | test (ifTrue ifFalse : Slot H)
  /-- A choice that waits for the second operand of its comparison. -/
  | second (op : Comparison) (ifTrue ifFalse : Slot H)
  /-- A choice that waits for the first operand of its comparison. -/
  | first (op : Comparison) (second ifTrue ifFalse : Slot H)
  /-- Stands for its operand. -/
  | forward
  /-- An assignment that waits for its destination. -/
  | destination
  /-- An assignment that waits for its source. -/
  | source (destination : Slot H)

/-- What is left to do once all operands are there. -/
inductive Completion (H : Type)
  | apply (p : Primitive) (operands : List (Slot H))
  | forward (value : Slot H)
  | assign (source destination : Slot H)

namespace Frame

variable {H : Type}

/-- The frame with one more operand, or what is left to do. A comparison is no
    operand: a frame that waits for it is not fed. -/
def feed (value : Slot H) : Frame H → Frame H ⊕ Completion H
  | collect p 0 operands => .inr (.apply p (value :: operands))
  | collect p (missing + 1) operands => .inl (.collect p missing (value :: operands))
  | otherwise => .inl (.consequent value)
  | consequent ifFalse => .inl (.test value ifFalse)
  | test ifTrue ifFalse => .inl (.test ifTrue ifFalse)
  | second op ifTrue ifFalse => .inl (.first op value ifTrue ifFalse)
  | first op rhs ifTrue ifFalse => .inr (.apply (.condition op) [value, rhs, ifTrue, ifFalse])
  | forward => .inr (.forward value)
  | destination => .inl (.source value)
  | source target => .inr (.assign value target)

end Frame

/-- What evaluation works on. -/
structure Evaluation (β H : Type) where
  backend : β
  bindings : Bindings H := {}
  /-- The results of the applications so far, by signature. -/
  cache : Table String (Value H) := {}
  /-- The tokens not taken so far, the last of the expression first. -/
  left : List Token := []

namespace Evaluation

/-- A step of an evaluation. -/
abbrev Step (β H : Type) := Action CompileError (Evaluation β H)

variable {β H ε : Type}

/-- Leave these tokens for what comes next. -/
def leave (tokens : List Token) : Step β H Unit :=
  Action.change fun s => { s with left := tokens }

/-- A computation on the backend as a step. -/
def onBackend {α : Type} (a : Action CompileError β α) : Step β H α :=
  a.zoom (·.backend) (fun s b => { s with backend := b }) id

/-- The value of an identifier. In validate mode one that is not bound is noted
    and has no value. -/
def identifier (mode : Mode) (name : String) : Step β H (Slot H) := do
  let (found, bindings) := (← Action.state).bindings.resolve name
  Action.change fun s => { s with bindings }
  match found, mode with
  | some v, _ => return some v
  | none, .emit => throw (.invalidIdentifier name)
  | none, .validate =>
    Action.change fun s => { s with bindings := s.bindings.markInvalid name }
    return none

/-- The value of a constant. -/
def constant : Constant → Value H
  | .true => .bool true
  | .false => .bool false
  | .e => .scalar Number.e
  | .pi => .scalar Number.pi

/-- What a token does on its own: it waits for operands, or it has a value. -/
def start (mode : Mode) : Token → Step β H (Frame H ⊕ Slot H)
  | .call name arity =>
    match Function.ofName? name with
    | none => throw (.invalidOperator name)
    | some f =>
      if f.arity.accepts arity then return .inl (.collect (.call f) (arity - 1) [])
      else throw (.arity f.name f.arity arity)
  | .list arity =>
    if 2 ≤ arity ∧ arity ≤ 4 then return .inl (.collect .list (arity - 1) [])
    else throw (.sequenceLength arity)
  | .negate => return .inl (.collect .negate 0 [])
  | .not => return .inl (.collect .not 0 [])
  | .binary op => return .inl (.collect (.binary op) 1 [])
  | .component which => return .inl (.collect (.component which) 0 [])
  | .ternary => return .inl .otherwise
  | .alternative => return .inl .forward
  | .assign => return .inl .destination
  | .constant c => return .inr (some (constant c))
  | .rotateOrder o => return .inr (some (.order o))
  | .identifier name => return .inr (← identifier mode name)
  | .comparison test => throw (.invalidOperator test.symbol)
  | .number text =>
    match Number.read? text with
    | some x => return .inr (some (.scalar x))
    | none => throw (.invalidOperator text)

/-- The values of the operands, if all have one. -/
def values? : List (Slot H) → Option (List (Value H))
  | [] => some []
  | none :: _ => none
  | some v :: rest => (values? rest).map (v :: ·)

variable [ToString H] [Backend β H ε]

/-- Apply a primitive, through the cache. Nothing is applied in validate mode or
    to an operand without a value. -/
def apply (mode : Mode) (p : Primitive) (operands : List (Slot H)) : Step β H (Slot H) := do
  match mode, values? operands with
  | .validate, _ => return none
  | .emit, none => return none
  | .emit, some args =>
    let s ← Action.state
    let signature := p.signature (args.map s.bindings.describe)
    match s.cache.get? signature with
    | some v =>
      Action.say .trace ("cache hit: " ++ signature)
      return some v
    | none =>
      Action.say .debug ("emit " ++ p.label ++ ": " ++ signature)
      let v ← onBackend (p.invoke args)
      Action.change fun s => { s with cache := s.cache.insert signature v }
      return some v

/-- Drive the destination by the source, if both have a value. -/
def assign (mode : Mode) (source destination : Slot H) : Step β H (Slot H) := do
  match mode, source, destination with
  | .emit, some source, some destination =>
    Action.say .debug ("equal(" ++ source.text ++ ", " ++ destination.text ++ ")")
    onBackend (Primitive.onBackend (Backend.drive source destination))
  | _, _, _ => pure ()
  return none

/-- Do what is left to do. -/
def complete (mode : Mode) : Completion H → Step β H (Slot H)
  | .apply p operands => apply mode p operands
  | .forward value => return value
  | .assign source destination => assign mode source destination

/-- Give a value to the innermost frame, and what that completes to the next one:
    the frames that still wait, or the value of the whole. -/
def deliver (mode : Mode) (value : Slot H) : List (Frame H) → Step β H (List (Frame H) ⊕ Slot H)
  | [] => return .inr value
  | frame :: outer =>
    match frame.feed value with
    | .inl frame => return .inl (frame :: outer)
    | .inr completion => do deliver mode (← complete mode completion) outer

/-- Evaluate tokens, the last of the expression first, for the frames that wait.
    The tokens not needed for the value of the whole are left. -/
def resolve (mode : Mode) : List (Frame H) → List Token → Step β H (Slot H)
  | .test ifTrue ifFalse :: outer, tokens =>
    match tokens with
    | [] => throw (.underflow .condition)
    | .comparison test :: rest => do
      leave rest
      resolve mode (.second test ifTrue ifFalse :: outer) rest
    | other :: rest => do
      leave rest
      throw (.invalidOperator other.text)
  | frames, tokens =>
    match tokens with
    | [] => throw (.underflow .operand)
    | token :: rest => do
      leave rest
      match ← start mode token with
      | .inl frame => resolve mode (frame :: frames) rest
      | .inr value =>
        match ← deliver mode value frames with
        | .inl frames => resolve mode frames rest
        | .inr value => return value

/-- Evaluate an expression in post-order: the value of its last token. -/
def evaluate (mode : Mode) (tokens : List Token) : Step β H (Slot H) := do
  leave tokens.reverse
  resolve mode [] tokens.reverse

end Evaluation

end RigExpr
