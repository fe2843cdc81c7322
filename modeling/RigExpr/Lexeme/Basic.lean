/-!
# Lexemes

The lexical units of driver expressions. A lexeme keeps the text it was read
from, and stands in the source at a span of bytes.
-/

namespace RigExpr

/-- The fixed lexemes. -/
inductive Symbol
  | plus | minus | star | slash | caret | percent
  | pipe | ampersand | bang
  | equal | notEqual | greater | greaterEqual | less | lessEqual
  | question | colon | assign
  | openParen | closeParen | openBracket | closeBracket
  | comma | dot
  deriving Repr, DecidableEq

namespace Symbol

/-- The text of a symbol. -/
def text : Symbol → String
  | plus => "+"
  | minus => "-"
  | star => "*"
  | slash => "/"
  | caret => "^"
  | percent => "%"
  | pipe => "|"
  | ampersand => "&"
  | bang => "!"
  | equal => "=="
  | notEqual => "!="
  | greater => ">"
  | greaterEqual => ">="
  | less => "<"
  | lessEqual => "<="
  | question => "?"
  | colon => ":"
  | assign => "="
  | openParen => "("
  | closeParen => ")"
  | openBracket => "["
  | closeBracket => "]"
  | comma => ","
  | dot => "."

/-- Every symbol, longer texts first. -/
def all : List Symbol :=
  [equal, notEqual, greaterEqual, lessEqual,
   plus, minus, star, slash, caret, percent, pipe, ampersand, bang, greater, less,
   question, colon, assign, openParen, closeParen, openBracket, closeBracket, comma, dot]

end Symbol

/-- A lexical unit. -/
inductive Lexeme
  /-- An unsigned number. -/
  | number (text : String)
  /-- A name or a keyword. -/
  | word (text : String)
  | symbol (s : Symbol)
  deriving Repr, DecidableEq

namespace Lexeme

/-- The source text of a lexeme. -/
def text : Lexeme → String
  | number text => text
  | word text => text
  | symbol s => s.text

/-- The lexeme as messages show it. -/
def describe : Lexeme → String
  | number text => "number '" ++ text ++ "'"
  | word text => "identifier '" ++ text ++ "'"
  | symbol s => "'" ++ s.text ++ "'"

end Lexeme

/-- A range of bytes of the source. -/
structure Span where
  start : Nat
  stop : Nat
  deriving Repr, DecidableEq

/-- The span as messages show it. -/
def Span.text (s : Span) : String := toString s.start ++ ".." ++ toString s.stop

/-- A lexeme at its place in the source. -/
structure Located where
  lexeme : Lexeme
  span : Span
  deriving Repr, DecidableEq

end RigExpr
