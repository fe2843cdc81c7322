import RigExpr.Expr.Basic
import RigExpr.Lexeme.Scan

/-!
# Parsing

The grammar of sources:

```text
statement      := WORD '=' expression | expression
expression     := comparison ( '?' expression ':' expression )?
comparison     := logical ( ('==' | '!=' | '>' | '>=' | '<' | '<=') logical )?
logical        := additive ( ('|' | '&') additive )*
additive       := multiplicative ( ('+' | '-') multiplicative )*
multiplicative := exponent ( ('*' | '/' | '%') exponent )*
exponent       := unary ( '^' exponent )?
unary          := ('-' | '!')* atom ( '.' WORD )*
atom           := NUMBER | WORD | WORD '(' items ')' | '[' items ']' | '(' expression ')'
items          := ( expression ( ',' expression )* )?
```

where the comparison before a `?` has to take its operator. Operators of one
level group to the left, except that `^` groups to the right.

Each parser takes the lexemes left and returns what it parsed with the lexemes
after it. Two of them nest: an expression in another one, and the right operand
of `^`. They recurse on the room left below the nesting limit, so that the
limit also is what makes them end. The parsers of one level are given those of
the next as arguments.

* `Statement.parse` reads a source.
-/

namespace RigExpr

/-- What stays the same throughout a source. -/
structure Extent where
  /-- How deeply expressions may nest. -/
  limit : Nat
  /-- The number of bytes of the source. -/
  stop : Nat

/-- A parser: from the lexemes left to what was parsed and the lexemes after it. -/
abbrev Parser (α : Type) := List Located → Except ParseError (α × List Located)

namespace Parser

variable (x : Extent)

/-- The failure at a lexeme the grammar does not allow. -/
def unexpected (l : Located) (expected : Expectation) : ParseError :=
  .malformed ⟨.unexpected l.lexeme expected, l.span⟩

/-- The failure at the end of a source that the grammar does not allow. -/
def ended (expected : Expectation) : ParseError :=
  .malformed ⟨.ended expected, ⟨x.stop, x.stop⟩⟩

/-- Nesting beyond the limit. -/
def tooDeep {α : Type} : Parser α := fun _ => .error (.tooDeep x.limit)

/-- The place of the next lexeme, or of the end. -/
def place : List Located → Span
  | l :: _ => l.span
  | [] => ⟨x.stop, x.stop⟩

/-- Whether the next lexeme is the symbol. -/
def nextIs (s : Symbol) : List Located → Bool
  | l :: _ => l.lexeme = .symbol s
  | [] => false

/-- The symbol `s`, which goes on with the scope or ends it. -/
def expect (s : Symbol) (scope : Scope) : Parser Unit
  | l :: rest =>
    if l.lexeme = .symbol s then .ok ((), rest) else .error (unexpected l (.symbol scope s))
  | [] => .error (ended x (.symbol scope s))

/-! ## Operators -/

/-- The operators of the multiplicative level. -/
def multiplicative? : Lexeme → Option BinaryOp
  | .symbol .star => some .multiply
  | .symbol .slash => some .divide
  | .symbol .percent => some .modulo
  | _ => none

/-- The operators of the additive level. -/
def additive? : Lexeme → Option BinaryOp
  | .symbol .plus => some .add
  | .symbol .minus => some .subtract
  | _ => none

/-- The operators of the logical level. -/
def logical? : Lexeme → Option BinaryOp
  | .symbol .pipe => some .or
  | .symbol .ampersand => some .and
  | _ => none

/-- The comparison operators. -/
def comparison? : Lexeme → Option Comparison
  | .symbol .equal => some .equal
  | .symbol .notEqual => some .notEqual
  | .symbol .greater => some .greater
  | .symbol .greaterEqual => some .greaterEqual
  | .symbol .less => some .less
  | .symbol .lessEqual => some .lessEqual
  | _ => none

/-- The operators in front of an operand. -/
def unary? : Lexeme → Option UnaryOp
  | .symbol .minus => some .negate
  | .symbol .bang => some .not
  | _ => none

/-! ## Operands -/

/-- The leading operators in front of an operand, and the lexemes after them. -/
def prefixes : List Located → List UnaryOp × List Located
  | [] => ([], [])
  | l :: rest =>
    match unary? l.lexeme with
    | some op => (op :: (prefixes rest).1, (prefixes rest).2)
    | none => ([], l :: rest)

/-- The component accesses that follow `object`. -/
def accesses (object : Expr) : Parser Expr
  | [] => .ok (object, [])
  | [l] => if l.lexeme = .symbol .dot then .error (ended x .componentName) else .ok (object, [l])
  | l :: name :: rest =>
    if l.lexeme = .symbol .dot then
      match name.lexeme with
      | .word text => accesses (.component object (.ofName text)) rest
      | _ => .error (unexpected name .componentName)
    else .ok (object, l :: name :: rest)

/-- One or more expressions with commas between them, up to `close`. `fuel`
    bounds their number; the number of lexemes is enough. -/
def items (close : Symbol) (scope : Scope) (nested : Parser Expr) :
    (fuel : Nat) → Parser (List Expr)
  | 0, _ => .error (ended x (.separator scope close))
  | fuel + 1, input => do
    let (item, rest) ← nested input
    match rest with
    | [] => .error (ended x (.separator scope close))
    | l :: rest =>
      if l.lexeme = .symbol .comma then
        match rest with
        | next :: _ =>
          if next.lexeme = .symbol close then .error (unexpected next .item)
          else do
            let (more, rest) ← items close scope nested fuel rest
            .ok (item :: more, rest)
        | [] => do
          let (more, rest) ← items close scope nested fuel []
          .ok (item :: more, rest)
      else if l.lexeme = .symbol close then .ok ([item], rest)
      else .error (unexpected l (.separator scope close))

/-- Expressions with commas between them, up to `close`. -/
def arguments (close : Symbol) (scope : Scope) (nested : Parser Expr) : Parser (List Expr)
  | l :: rest =>
    if l.lexeme = .symbol close then .ok ([], rest)
    else items x close scope nested (rest.length + 1) (l :: rest)
  | [] => items x close scope nested 1 []

/-- A word that no parenthesis follows: a keyword, or the name of a binding. -/
def ofWord (text : String) : Expr :=
  match Constant.ofKeyword? text with
  | some c => .constant c
  | none =>
    match RotateOrder.ofKeyword? text with
    | some o => .order o
    | none => .identifier text

/-- An operand without operators. -/
def atom (nested : Parser Expr) : Parser Expr
  | [] => .error (ended x .operand)
  | l :: rest =>
    match l.lexeme with
    | .number text => .ok (.number text, rest)
    | .word text =>
      match rest with
      | [] => .ok (ofWord text, [])
      | next :: inner =>
        if next.lexeme = .symbol .openParen then do
          let (args, rest) ← arguments x .closeParen .arguments nested inner
          .ok (.call text args, rest)
        else .ok (ofWord text, rest)
    | .symbol .openBracket => do
      let (entries, rest) ← arguments x .closeBracket .listLiteral nested rest
      .ok (.list entries, rest)
    | .symbol .openParen => do
      let (inner, rest) ← nested rest
      let ((), rest) ← expect x .closeParen .group rest
      .ok (.group inner, rest)
    | _ => .error (unexpected l .operand)

/-- An operand with its component accesses and the operators in front of it,
    which apply to the whole of it, the nearest first. -/
def unary (nested : Parser Expr) : Parser Expr := fun input =>
  let (ops, rest) := prefixes input
  if x.limit < ops.length then tooDeep x rest
  else do
    let (object, rest) ← atom x nested rest
    let (operand, rest) ← accesses x object rest
    .ok (ops.foldr .unary operand, rest)

/-- An operand and, after a `^`, the exponent it is raised to. -/
def powers (base right : Parser Expr) : Parser Expr := fun input => do
  let (lhs, rest) ← base input
  match rest with
  | l :: inner =>
    if l.lexeme = .symbol .caret then do
      let (rhs, rest) ← right inner
      .ok (.binary .power lhs rhs, rest)
    else .ok (lhs, rest)
  | [] => .ok (lhs, [])

/-! ## Levels of operators -/

/-- What follows `lhs` on a level of operators that group to the left. `fuel`
    bounds the number of operators; the number of lexemes is enough. -/
def chain (operator? : Lexeme → Option BinaryOp) (operand : Parser Expr) :
    (fuel : Nat) → (lhs : Expr) → Parser Expr
  | 0, lhs, input => .ok (lhs, input)
  | _ + 1, lhs, [] => .ok (lhs, [])
  | fuel + 1, lhs, l :: rest =>
    match operator? l.lexeme with
    | some op => do
      let (rhs, rest) ← operand rest
      chain operator? operand fuel (.binary op lhs rhs) rest
    | none => .ok (lhs, l :: rest)

/-- Operands with operators between them that group to the left. -/
def leftward (operator? : Lexeme → Option BinaryOp) (operand : Parser Expr) : Parser Expr :=
  fun input => do
    let (lhs, rest) ← operand input
    chain operator? operand rest.length lhs rest

/-- The level below comparisons, from the level above multiplication. -/
def logical (exponent : Parser Expr) : Parser Expr :=
  leftward logical? (leftward additive? (leftward multiplicative? exponent))

/-- What stands at the start of an expression. -/
inductive Head
  | plain (e : Expr)
  | compared (test : Comparison) (lhs rhs : Expr)

/-- An operand and, after a comparison operator, the one it is compared with. -/
def head (operand : Parser Expr) : Parser Head := fun input => do
  let (lhs, rest) ← operand input
  match rest with
  | [] => .ok (.plain lhs, [])
  | l :: inner =>
    match comparison? l.lexeme with
    | some test => do
      let (rhs, rest) ← operand inner
      .ok (.compared test lhs rhs, rest)
    | none => .ok (.plain lhs, rest)

/-- A comparison with the two expressions it chooses between, or an expression
    without question mark. -/
def conditional (exponent nested : Parser Expr) : Parser Expr := fun input => do
  let (start, rest) ← head (logical exponent) input
  match start with
  | .compared test lhs rhs =>
    if nextIs .question rest then do
      let (ifTrue, rest) ← nested rest.tail
      let ((), rest) ← expect x .colon .ternary rest
      let (ifFalse, rest) ← nested rest
      .ok (.ternary test lhs rhs ifTrue ifFalse, rest)
    else .ok (.compare test lhs rhs, rest)
  | .plain e =>
    if nextIs .question rest then .error (.malformed ⟨.condition, place x input⟩)
    else .ok (e, rest)

mutual

/-- An expression, with room for this many levels of nesting. -/
def expression : (room : Nat) → Parser Expr
  | 0, input => tooDeep x input
  | room + 1, input => conditional x (exponent room) (expression room) input

/-- The operands of multiplication inside an expression, with room for this many
    more levels of nesting. -/
def exponent : (room : Nat) → Parser Expr
  | 0, input => powers (unary x (tooDeep x)) (tooDeep x) input
  | room + 1, input =>
    powers (unary x (conditional x (exponent room) (expression room))) (exponent room) input

end

/-- The exponent of an exponent. -/
def deeper : (room : Nat) → Parser Expr
  | 0 => tooDeep x
  | room + 1 => exponent x room

theorem expression_succ (room : Nat) :
    expression x (room + 1) = conditional x (exponent x room) (expression x room) := by
  funext input
  rw [expression]

/-- An operand of multiplication is an operand with operators in front, which may
    hold expressions, and perhaps an exponent one level deeper. -/
theorem exponent_eq (room : Nat) :
    exponent x room = powers (unary x (expression x room)) (deeper x room) := by
  funext input
  cases room with
  | zero =>
    have h : expression x 0 = tooDeep x := by
      funext input
      rw [expression]
    rw [exponent, h]
    rfl
  | succ room => rw [exponent, expression_succ]; rfl

end Parser

namespace Statement

/-- The destination at the start of a source, and the lexemes after it. -/
def destination? : List Located → Option String × List Located
  | first :: second :: rest =>
    match first.lexeme, second.lexeme with
    | .word name, .symbol .assign => (some name, rest)
    | _, _ => (none, first :: second :: rest)
  | input => (none, input)

/-- The statement of the lexemes of a source. -/
def ofLexemes (x : Extent) (lexemes : List Located) : Except ParseError Statement := do
  let (destination, input) := destination? lexemes
  let (expression, rest) ← Parser.expression x x.limit input
  match rest with
  | [] => .ok { destination, expression }
  | l :: _ => .error (Parser.unexpected l .done)

/-- The statement of a source in which expressions nest at most `limit` deep. -/
def parse (limit : Nat) (source : String) : Except ParseError Statement :=
  match Lexeme.scan source with
  | .ok lexemes => ofLexemes { limit, stop := source.utf8ByteSize } lexemes
  | .error e => .error (.malformed e)

end Statement

end RigExpr
