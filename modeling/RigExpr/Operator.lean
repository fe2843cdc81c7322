/-!
# Operators

The operators of driver expressions, with their symbols.
-/

namespace RigExpr

/-- The operators with two operands. -/
inductive BinaryOp
  | add | subtract | multiply | divide | power | modulo | or | and
  deriving Repr, DecidableEq

/-- The symbol of a binary operator. -/
def BinaryOp.symbol : BinaryOp → String
  | add => "+"
  | subtract => "-"
  | multiply => "*"
  | divide => "/"
  | power => "^"
  | modulo => "%"
  | or => "|"
  | and => "&"

/-- The operators in front of an operand. -/
inductive UnaryOp
  | negate | not
  deriving Repr, DecidableEq

/-- The comparisons, which only ever decide between two values. -/
inductive Comparison
  | equal | notEqual | greater | greaterEqual | less | lessEqual
  deriving Repr, DecidableEq

namespace Comparison

/-- Every comparison. -/
def all : List Comparison := [equal, notEqual, greater, greaterEqual, less, lessEqual]

/-- The symbol of a comparison. -/
def symbol : Comparison → String
  | equal => "=="
  | notEqual => "!="
  | greater => ">"
  | greaterEqual => ">="
  | less => "<"
  | lessEqual => "<="

/-- The name of a comparison in graphs. -/
def name : Comparison → String
  | equal => "Equal"
  | notEqual => "NotEqual"
  | greater => "Greater"
  | greaterEqual => "GreaterEqual"
  | less => "Less"
  | lessEqual => "LessEqual"

/-- The comparison with this name. -/
def ofName? (word : String) : Option Comparison := all.find? fun c => c.name = word

/-- Whether two numbers compare so. Nothing compares with what is not a number,
    except that it differs from everything. -/
def test (c : Comparison) (x y : Float) : Bool :=
  match c with
  | equal => x == y
  | notEqual => x != y
  | greater => y < x
  | greaterEqual => y ≤ x
  | less => x < y
  | lessEqual => x ≤ y

@[simp] theorem ofName?_name (c : Comparison) : ofName? c.name = some c := by
  cases c <;> rfl

end Comparison

end RigExpr
