import RigExpr.Lexeme.Basic
import RigExpr.Text.Quoted

/-!
# Errors in the source of an expression

A source that is not an expression fails at one place for one cause; a source
that nests too deeply fails as a whole. The wording stands in `SyntaxError.message`
and `ParseError.message`.
-/

namespace RigExpr

/-- A construct that a closing lexeme ends. -/
inductive Scope
  | ternary
  | group
  | arguments
  | listLiteral
  deriving Repr, DecidableEq

/-- The scope as messages show it. -/
def Scope.text : Scope → String
  | ternary => "in ternary"
  | group => "in parenthesised group"
  | arguments => "in call arguments"
  | listLiteral => "in list literal"

/-- What the grammar asks for at a place. -/
inductive Expectation
  /-- An operand. -/
  | operand
  /-- The name of a component, after a point. -/
  | componentName
  /-- The symbol that goes on with a scope or ends it. -/
  | symbol (scope : Scope) (s : Symbol)
  /-- A comma or the end of a list of expressions. -/
  | separator (scope : Scope) (close : Symbol)
  /-- One more expression, after a comma. -/
  | item
  /-- The end of the source. -/
  | done
  deriving Repr, DecidableEq

namespace Expectation

/-- Where a lexeme disappoints the expectation. -/
def disappointed : Expectation → String
  | operand => "where an operand was expected"
  | componentName => "after '.', expected a component name"
  | symbol scope s => scope.text ++ ", expected '" ++ s.text ++ "'"
  | separator scope close => scope.text ++ ", expected ',' or '" ++ close.text ++ "'"
  | item => "after ','"
  | done => "after the end of the expression"

/-- Where the end of the source disappoints the expectation. -/
def cutOff : Expectation → String
  | operand => "while expecting an operand"
  | componentName => "after '.'"
  | symbol scope s => scope.text ++ ", expected '" ++ s.text ++ "'"
  | separator scope close => scope.text ++ ", expected '" ++ close.text ++ "'"
  | item => "after ','"
  | done => "after the end of the expression"

end Expectation

/-- Why a source is not an expression. -/
inductive SyntaxError.Cause
  /-- No lexeme starts with this character. -/
  | character (c : Char)
  /-- The lexeme is not what the grammar asks for. -/
  | unexpected (found : Lexeme) (expected : Expectation)
  /-- The source ends before what the grammar asks for. -/
  | ended (expected : Expectation)
  /-- What stands before a question mark is not a comparison. -/
  | condition
  deriving Repr, DecidableEq

/-- A source that is not an expression, with the place where this shows. -/
structure SyntaxError where
  cause : SyntaxError.Cause
  span : Span
  deriving Repr, DecidableEq

/-- The cause in words. -/
def SyntaxError.Cause.text : SyntaxError.Cause → String
  | character c => "invalid character " ++ Text.quoteChar c
  | unexpected found expected => "unexpected " ++ found.describe ++ " " ++ expected.disappointed
  | ended expected => "unexpected end of input " ++ expected.cutOff
  | condition => "ternary condition must be a comparison"

/-- The cause in words, with its place. -/
def SyntaxError.message (e : SyntaxError) : String := e.cause.text ++ " at " ++ e.span.text

/-- Why a source has no expression. -/
inductive ParseError
  /-- It is not an expression. -/
  | malformed (e : SyntaxError)
  /-- It nests more deeply than the limit. -/
  | tooDeep (limit : Nat)
  deriving Repr, DecidableEq

/-- The error in words. -/
def ParseError.message : ParseError → String
  | malformed e => e.message
  | tooDeep limit => "expression nesting exceeds the configured limit of " ++ toString limit

end RigExpr
