import RigExpr.Backend

/-!
# Primitives

A primitive is an operator, a list or a function of the source, whose operands
are values. Applied to the descriptions of its operands it has a signature,
which identifies the application; invoked on the operands themselves it runs
operations of the backend.
-/

namespace RigExpr

/-- An operator, list or function of the source. -/
inductive Primitive
  | binary (op : BinaryOp)
  | negate
  | not
  /-- The choice by a comparison of the first two of four operands. -/
  | condition (test : Comparison)
  | component (which : Component)
  | list
  | call (f : Function)
  deriving Repr, DecidableEq

namespace Primitive

/-- Texts with a comma and a blank between them. -/
def commas (texts : List String) : String := String.intercalate ", " texts

/-- The application of the primitive to the descriptions of its operands. It
    keeps their order; a missing one shows as a question mark. -/
def signature (p : Primitive) (args : List String) : String :=
  let arg (i : Nat) : String := args.getD i "?"
  match p with
  | binary op => arg 0 ++ " " ++ op.symbol ++ " " ++ arg 1
  | negate => "-(" ++ arg 0 ++ ")"
  | not => "!(" ++ arg 0 ++ ")"
  | condition test =>
    arg 0 ++ " " ++ test.symbol ++ " " ++ arg 1 ++ " ? " ++ arg 2 ++ " : " ++ arg 3
  | component which => arg 0 ++ "." ++ which.text
  | list => Token.listName ++ "(" ++ commas args ++ ")"
  | call f => f.name ++ "(" ++ commas args ++ ")"

/-- The primitive as the log and messages show it. -/
def label : Primitive → String
  | binary op => op.symbol
  | negate => "neg"
  | not => "not"
  | condition _ => "condition"
  | component _ => "get_component"
  | list => Token.listName
  | call f => f.name

variable {β H ε : Type} [Backend β H ε]

/-- What the backend does, with its refusals as errors of the compilation. -/
def onBackend {α : Type} (a : Action ε β α) : Action CompileError β α :=
  a.zoom id (fun _ b => b) fun e => .refused (Backend.explain β e)

/-- Run an operation of the backend. -/
def run (op : Operation H) : Action CompileError β (Value H) :=
  onBackend (Backend.perform op)

/-- Run a binary operator. -/
def invokeBinary (op : BinaryOp) (a b : Value H) : Action CompileError β (Value H) :=
  match op with
  | .add => run (.arith .add a b)
  | .subtract => run (.arith .subtract a b)
  | .multiply => run (.arith .multiply a b)
  | .divide => run (.arith .divide a b)
  | .power => run (.arith .power a b)
  | .modulo => onBackend (Backend.modulo a b)
  | .or => run (.logic .or a b)
  | .and => run (.logic .and a b)

/-- Run a function on its arguments. -/
def invokeCall (f : Function) (args : List (Value H)) : Action CompileError β (Value H) :=
  match f, args with
  | .clamp, [value, low, high] => run (.clamp value low high)
  | .lerp, [a, b, t] => run (.lerp a b t)
  | .remap, [value, inLow, inHigh, outLow, outHigh] =>
    run (.remap value inLow inHigh outLow outHigh)
  | .cos, [a] => run (.trig .cos a)
  | .sin, [a] => run (.trig .sin a)
  | .tan, [a] => onBackend (Backend.tan a)
  | .acos, [a] => run (.trig .acos a)
  | .asin, [a] => run (.trig .asin a)
  | .atan, [a] => run (.trig .atan a)
  | .noise, [a] => run (.noise a)
  | .dnoise, [a] => run (.slope a)
  | .norm, [v] => run (.normalize v)
  | .dot, [a, b] => run (.dot a b)
  | .cross, [a, b] => run (.cross a b)
  | .len, [v] => run (.length v)
  | .distance, [a, b] => run (.distance a b)
  | .angle, [a, b] => run (.angle a b)
  | .vector, args => run (.vector args)
  | .euler, args => run (.euler args)
  | .rotateOrder, [v] => run (.rotateOrder v)
  | .quat, args => run (.quat args)
  | .transform, args => run (.transform args)
  | .matrix, args => run (.matrix args)
  | .slerp, [a, b, t] => run (.slerp a b t)
  | .int, [a] => run (.int a)
  | .bool, [a] => run (.bool a)
  | .switch, selector :: options => run (.switch selector options)
  | .isScalar, [v] => do return .bool (Backend.isScalar (← Action.state) v)
  | .isVector, [v] => do return .bool (Backend.isVector (← Action.state) v)
  | .xor, [a, b] => run (.logic .xor a b)
  | .pow, [a, b] => run (.arith .power a b)
  | .modulo, [a, b] => onBackend (Backend.modulo a b)
  | .inverse, [a] => onBackend (Backend.inverse a)
  | .exp, [a] => onBackend (Backend.exp a)
  | .sqrt, [a] => onBackend (Backend.sqrt a)
  | .abs, [a] => onBackend (Backend.abs a)
  | .sign, [a] => onBackend (Backend.sign a)
  | .min, [a, b] => onBackend (Backend.min a b)
  | .max, [a, b] => onBackend (Backend.max a b)
  | .value, [v] => pure v
  | f, args => throw (.arity f.name f.arity args.length)

/-- Run a primitive on its operands. -/
def invoke (p : Primitive) (args : List (Value H)) : Action CompileError β (Value H) :=
  match p, args with
  | binary op, [a, b] => invokeBinary op a b
  | negate, [a] => onBackend (Backend.negate a)
  | not, [a] => run (.not a)
  | condition test, [first, second, ifTrue, ifFalse] =>
    run (.condition test first second ifTrue ifFalse)
  | component which, [object] => run (.component object which)
  | list, args => Action.ofExcept (Value.ofItems args)
  | call f, args => invokeCall f args
  | binary _, args => throw (.arity p.label (.exactly 2) args.length)
  | condition _, args => throw (.arity p.label (.exactly 4) args.length)
  | _, args => throw (.arity p.label (.exactly 1) args.length)

end Primitive

end RigExpr
