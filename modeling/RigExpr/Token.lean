import RigExpr.Operator
import RigExpr.RotateOrder

/-!
# Tokens

An expression in post-order: operands before their operator. A token stream is
evaluated from its end, where each operator asks for its operands in turn.

* `Token.foldNegation` turns a negated number into a negative one.
-/

namespace RigExpr

/-- The keyword constants. -/
inductive Constant
  | true | false | e | pi
  deriving Repr, DecidableEq

namespace Constant

/-- The constant that a keyword stands for. -/
def ofKeyword? (word : String) : Option Constant :=
  if word = "TRUE" ∨ word = "ON" then some .true
  else if word = "FALSE" ∨ word = "OFF" then some .false
  else if word = "E" then some .e
  else if word = "PI" then some .pi
  else none

/-- The first keyword of a constant. -/
def keyword : Constant → String
  | .true => "TRUE"
  | .false => "FALSE"
  | .e => "E"
  | .pi => "PI"

end Constant

/-- What a component access asks of its object. -/
inductive Component
  /-- The component at an index; `x`, `y`, `z` and `w` are the first four. -/
  | axis (index : Nat)
  /-- An output of its own name. -/
  | named (name : String)
  deriving Repr, DecidableEq

namespace Component

/-- The component with this name. -/
def ofName (name : String) : Component :=
  if name = "x" then axis 0
  else if name = "y" then axis 1
  else if name = "z" then axis 2
  else if name = "w" then axis 3
  else named name

/-- The name of a component. -/
def text : Component → String
  | axis 0 => "x"
  | axis 1 => "y"
  | axis 2 => "z"
  | axis 3 => "w"
  | axis _ => "?"
  | named name => name

end Component

/-- An entry of an expression in post-order. -/
inductive Token
  /-- A number as written. -/
  | number (text : String)
  | identifier (name : String)
  | binary (op : BinaryOp)
  | negate
  | not
  | comparison (test : Comparison)
  /-- Drives the identifier before it. -/
  | assign
  | call (name : String) (arity : Nat)
  | list (arity : Nat)
  | component (which : Component)
  | constant (c : Constant)
  | rotateOrder (order : RotateOrder)
  /-- Chooses between two operands by the comparison before them. -/
  | ternary
  /-- Stands for the operand before it. -/
  | alternative
  deriving Repr, DecidableEq

namespace Token

/-- The name that list literals go by. -/
def listName : String := "!list"

/-- A token as text. -/
def text : Token → String
  | number text => text
  | identifier name => name
  | binary op => op.symbol
  | negate => "neg"
  | not => "!"
  | comparison test => test.symbol
  | assign => "="
  | call name arity => "(" ++ name ++ ", " ++ toString arity ++ ")"
  | list arity => "(" ++ listName ++ ", " ++ toString arity ++ ")"
  | component which => "(., " ++ which.text ++ ")"
  | constant c => c.keyword
  | rotateOrder order => order.keyword
  | ternary => "?"
  | alternative => ":"

/-- A token stream as text. -/
def streamText (tokens : List Token) : String := String.intercalate " " (tokens.map text)

/-- A number as written, with its sign turned. -/
def turnSign (text : String) : String :=
  match text.toList with
  | '-' :: rest => String.ofList rest
  | _ => "-" ++ text

/-- The stream with each negation that directly follows a number as written
    moved into that number. A number takes at most one negation. -/
def foldNegation : List Token → List Token
  | number text :: negate :: rest => number (turnSign text) :: foldNegation rest
  | t :: rest => t :: foldNegation rest
  | [] => []

end Token

end RigExpr
