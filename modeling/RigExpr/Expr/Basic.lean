import RigExpr.Token

/-!
# Expressions

The syntax tree of an expression. It keeps groups and bare comparisons apart
from what they stand for, so that a tree determines the lexemes it was read
from up to the choice between two keywords of one constant.

* `Expr.tokens`: the tree in post-order, in which groups vanish and a bare
  comparison chooses between the truth values.
* `Statement.tokens`: the same for a whole source.
-/

namespace RigExpr

/-- An expression. -/
inductive Expr
  /-- A number as written. -/
  | number (text : String)
  | constant (c : Constant)
  | order (o : RotateOrder)
  | identifier (name : String)
  | call (name : String) (args : List Expr)
  | list (items : List Expr)
  /-- An expression in parentheses. -/
  | group (inner : Expr)
  | component (object : Expr) (which : Component)
  | unary (op : UnaryOp) (operand : Expr)
  | binary (op : BinaryOp) (lhs rhs : Expr)
  /-- A comparison that no question mark follows. -/
  | compare (test : Comparison) (lhs rhs : Expr)
  | ternary (test : Comparison) (lhs rhs ifTrue ifFalse : Expr)
  deriving Repr

/-- The token of an operator in front of its operand. -/
def UnaryOp.token : UnaryOp → Token
  | negate => .negate
  | not => .not

namespace Expr

mutual

/-- The expression in post-order. -/
def tokens : Expr → List Token
  | number text => [.number text]
  | constant c => [.constant c]
  | order o => [.rotateOrder o]
  | identifier name => [.identifier name]
  | call name args => tokensAll args ++ [.call name args.length]
  | list items => tokensAll items ++ [.list items.length]
  | group inner => inner.tokens
  | component object which => object.tokens ++ [.component which]
  | unary op operand => operand.tokens ++ [op.token]
  | binary op lhs rhs => lhs.tokens ++ rhs.tokens ++ [.binary op]
  | compare test lhs rhs =>
    lhs.tokens ++ rhs.tokens ++
      [.comparison test, .constant .true, .constant .false, .ternary]
  | ternary test lhs rhs ifTrue ifFalse =>
    lhs.tokens ++ rhs.tokens ++ [.comparison test] ++ ifTrue.tokens ++ ifFalse.tokens ++
      [.ternary]

/-- The expressions in post-order, one after the other. -/
def tokensAll : List Expr → List Token
  | [] => []
  | e :: rest => e.tokens ++ tokensAll rest

end

end Expr

/-- What a source says: the value of an expression, or that an output is driven
    by it. -/
structure Statement where
  /-- The output to drive. -/
  destination : Option String
  expression : Expr
  deriving Repr

namespace Statement

/-- The tokens that drive the destination. -/
def assignment (s : Statement) : List Token :=
  match s.destination with
  | some name => [.identifier name, .assign]
  | none => []

/-- The statement in post-order. The assignment comes last, so that evaluation
    meets it first. -/
def tokens (s : Statement) : List Token := s.expression.tokens ++ s.assignment

end Statement

end RigExpr
