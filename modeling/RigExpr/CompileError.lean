import RigExpr.Expr.Error
import RigExpr.Function
import RigExpr.Json.Basic

/-!
# Errors of a compilation

Everything that can make the compilation of an expression fail. The wording
stands in `CompileError.message`.
-/

namespace RigExpr

/-- Why a JSON value cannot be bound to a name. -/
inductive BindingFault
  /-- The number is beyond the range of doubles. -/
  | number (n : Numeral)
  /-- The word names no rotate order. -/
  | keyword (word : String)
  /-- There are no values of this kind. -/
  | kind (j : Json)

/-- The fault in words. -/
def BindingFault.text : BindingFault → String
  | number n => "number " ++ n.text ++ " is not representable"
  | keyword word => "unknown keyword " ++ Text.quoteWord word
  | kind j => "unsupported JSON value " ++ j.normalize.compact

/-- What evaluation looked for at the end of the tokens. -/
inductive Wanted
  | operand
  | condition
  deriving Repr, DecidableEq

/-- The missing part in words. -/
def Wanted.text : Wanted → String
  | operand => "an operand"
  | condition => "a ternary condition"

/-- Why a compilation fails. -/
inductive CompileError
  /-- The source is not an expression, or nests too deeply. -/
  | source (e : ParseError)
  /-- The identifier is not bound. -/
  | invalidIdentifier (name : String)
  /-- No operator, function or number goes by this text. -/
  | invalidOperator (text : String)
  /-- A sequence does not have two to four components. -/
  | sequenceLength (count : Nat)
  /-- A function is given the wrong number of arguments. -/
  | arity (function : String) (expected : Arity) (found : Nat)
  /-- The tokens end too early. -/
  | underflow (wanted : Wanted)
  /-- The compiler is set up not to accept any nesting. -/
  | zeroDepth
  /-- A value cannot be bound. -/
  | invalidBinding (fault : BindingFault)
  /-- The backend refuses an operation, for the reason given. -/
  | refused (reason : String)

/-- The error in words. -/
def CompileError.message : CompileError → String
  | source e => e.message
  | invalidIdentifier name => "invalid identifier: " ++ name
  | invalidOperator text => "invalid operator: " ++ text
  | sequenceLength count =>
    "sequence must have 2, 3 or 4 components, got " ++ toString count
  | arity function expected found =>
    function ++ " expects " ++ expected.text ++ " argument(s), got " ++ toString found
  | underflow wanted => "token stream exhausted while evaluating " ++ wanted.text
  | zeroDepth => "invalid compiler configuration: max_depth must be greater than 0"
  | invalidBinding fault => "invalid binding value: " ++ fault.text
  | refused reason => reason

end RigExpr
