import RigExpr.Graph.Evaluate
import RigExpr.Primitive
import RigExpr.Proofs.Expr.Folded
import RigExpr.Proofs.Number.Sign

/-!
# The signal of an expression

What an expression over inputs of the host comes to, by recursion on its tree
(`Expr.signal`). There is no graph, no order of evaluation and no sharing in it: each
operator and each function is a formula on the signals of its operands. Functions that
come down to others are written out with those.

The functions that are left out can fail, or depend on more than the signals of their
arguments (`Function.isPlain`). Moving negations into numbers does not change the signal
(`Expr.signal_folded`).
-/

namespace RigExpr

namespace Signal

/-- An arithmetic operation on each component. Division by zero is not a number. -/
def arith (op : Arith) : Signal → Signal → Signal :=
  zipWith fun x y => if op = .divide then Node.quotient x y else op.apply x y

/-- A logical operation on the truth values. -/
def logic (op : Logic) (a b : Signal) : Signal := bool (op.apply a.toBool b.toBool)

/-- One of two signals, by a comparison of two others. -/
def choice (test : Comparison) (first second ifTrue ifFalse : Signal) : Signal :=
  if test.test first.toFloat second.toFloat then ifTrue else ifFalse

/-- `-1 * a` -/
def negate (a : Signal) : Signal := arith .multiply (float (-1)) a

/-- `a - b * int (a / b)` -/
def modulo (a b : Signal) : Signal :=
  arith .subtract a (arith .multiply b ((arith .divide a b).map Number.truncate))

/-- The vector of all components. -/
def joined (parts : List Signal) : Signal := vector (parts.flatMap components)

end Signal

open Signal

/-- A binary operator on signals. -/
def BinaryOp.signal : BinaryOp → Signal → Signal → Signal
  | add => arith .add
  | subtract => arith .subtract
  | multiply => arith .multiply
  | divide => arith .divide
  | power => arith .power
  | modulo => Signal.modulo
  | or => logic .or
  | and => logic .and

/-- An operator in front of a signal. -/
def UnaryOp.signal : UnaryOp → Signal → Signal
  | negate, a => a.negate
  | not, a => bool !a.toBool

/-- The signal of a constant. -/
def Constant.signal : Constant → Signal
  | true => bool Bool.true
  | false => bool Bool.false
  | e => float Number.e
  | pi => float Number.pi

namespace Function

/-- Whether the function has a signal for all signals of its arguments. -/
def isPlain : Function → Bool
  | euler | rotateOrder | quat | transform | matrix | slerp | switch | isScalar | isVector => false
  | _ => true

/-- A function on signals. -/
def signal : Function → List Signal → Signal
  | clamp, [x, low, high] => zipWith Number.smaller (zipWith Number.larger x low) high
  | lerp, [a, b, t] =>
    zipWith (· + ·) a (zipWith (· * ·) (zipWith (· - ·) b a) t)
  | remap, [x, inLow, inHigh, outLow, outHigh] =>
    x.map (Node.remapped inLow.toFloat inHigh.toFloat outLow.toFloat outHigh.toFloat)
  | cos, [a] => a.map Float.cos
  | sin, [a] => a.map Float.sin
  | tan, [a] => arith .divide (a.map Float.sin) (a.map Float.cos)
  | acos, [a] => a.map Float.acos
  | asin, [a] => a.map Float.asin
  | atan, [a] => a.map Float.atan
  | noise, [a] => a.map Noise.value
  | dnoise, [a] => a.map Noise.slope
  | norm, [v] => Signal.vector (Node.direction v.components)
  | dot, [a, b] =>
    float (if a.components.length = b.components.length then Number.dot a.components b.components
      else Number.nan)
  | cross, [a, b] => Signal.vector (Node.orthogonal a.components b.components)
  | len, [v] => float (Number.length v.components)
  | distance, [a, b] => float (Number.length (zipWith (· - ·) a b).components)
  | angle, [a, b] => float (Node.angle a.components b.components)
  | vector, parts => joined parts
  | int, [a] => a.map Number.truncate
  | bool, [a] => Signal.bool a.toBool
  | xor, [a, b] => logic .xor a b
  | pow, [a, b] => arith .power a b
  | modulo, [a, b] => a.modulo b
  | inverse, [a] => arith .power a (float (-1))
  | exp, [a] => arith .power (float Number.e) a
  | sqrt, [a] => arith .power a (float 0.5)
  | abs, [a] => choice .greaterEqual a (float 0) a a.negate
  | sign, [a] =>
    choice .equal a (float 0) (float 0)
      (choice .greaterEqual a (float 0) (float 1) (float (-1)))
  | min, [a, b] => choice .less a b a b
  | max, [a, b] => choice .greater a b a b
  | value, [v] => v
  | _, _ => default

end Function

namespace Expr

variable (env : String → Option Signal)

mutual

/-- The signal of an expression, if the host gives `env`. -/
def signal : Expr → Signal
  | number text => float ((Number.read? text).getD 0)
  | constant c => c.signal
  | order o => float (Number.ofIndex o.index)
  | identifier name => (env name).getD (float 0)
  | call name args =>
    match Function.ofName? name with
    | some f => f.signal (signalAll args)
    | none => default
  | list items => joined (signalAll items)
  | group inner => inner.signal
  | component _ _ => default
  | unary op operand => op.signal operand.signal
  | binary op lhs rhs => op.signal lhs.signal rhs.signal
  | compare test lhs rhs =>
    choice test lhs.signal rhs.signal (Signal.bool true) (Signal.bool false)
  | ternary test lhs rhs ifTrue ifFalse =>
    choice test lhs.signal rhs.signal ifTrue.signal ifFalse.signal

/-- The signals of expressions. -/
def signalAll : List Expr → List Signal
  | [] => []
  | e :: rest => e.signal :: signalAll rest

end

variable {env}

theorem signal_of_literal? {e : Expr} {text : String} (h : e.literal? = some text) :
    e.signal env = float ((Number.read? text).getD 0) := by
  fun_induction literal? e with
  | case1 text' => cases h; rfl
  | case2 inner ih => exact ih h
  | case3 => cases h

mutual

/-- A negative number is minus one times the number. -/
theorem signal_folded : (e : Expr) →
    (∀ text, .number text ∈ e.tokens → Lexeme.IsNumeral text) → e.folded.signal env = e.signal env
  | number _, _ | constant _, _ | order _, _ | identifier _, _ => rfl
  | call name args, h => by
    simp only [folded, signal,
      signalAll_foldedAll args fun text ht => h text (by simp [tokens, ht])]
  | list items, h => by
    simp only [folded, signal,
      signalAll_foldedAll items fun text ht => h text (by simp [tokens, ht])]
  | group inner, h => signal_folded inner h
  | component _ _, _ => rfl
  | unary .negate operand, h => by
    rw [folded]
    split
    · next text htext =>
      obtain ⟨x, hx, hturned⟩ :=
        Number.read?_turnSign (h text (by simp [tokens, tokens_of_literal? htext]))
      rw [signal, signal, signal_of_literal? htext, hx, hturned]
      rfl
    · rw [signal, signal, signal_folded operand fun text ht => h text (by simp [tokens, ht])]
  | unary .not operand, h => by
    rw [folded, signal, signal, signal_folded operand fun text ht => h text (by simp [tokens, ht])]
  | binary op lhs rhs, h => by
    rw [folded, signal, signal, signal_folded lhs fun text ht => h text (by simp [tokens, ht]),
      signal_folded rhs fun text ht => h text (by simp [tokens, ht])]
  | compare test lhs rhs, h => by
    rw [folded, signal, signal, signal_folded lhs fun text ht => h text (by simp [tokens, ht]),
      signal_folded rhs fun text ht => h text (by simp [tokens, ht])]
  | ternary test lhs rhs ifTrue ifFalse, h => by
    rw [folded, signal, signal, signal_folded lhs fun text ht => h text (by simp [tokens, ht]),
      signal_folded rhs fun text ht => h text (by simp [tokens, ht]),
      signal_folded ifTrue fun text ht => h text (by simp [tokens, ht]),
      signal_folded ifFalse fun text ht => h text (by simp [tokens, ht])]

theorem signalAll_foldedAll : (es : List Expr) →
    (∀ text, .number text ∈ tokensAll es → Lexeme.IsNumeral text) →
    signalAll env (foldedAll es) = signalAll env es
  | [], _ => rfl
  | e :: es, h => by
    rw [foldedAll, signalAll, signalAll,
      signal_folded e fun text ht => h text (by simp [tokensAll, ht]),
      signalAll_foldedAll es fun text ht => h text (by simp [tokensAll, ht])]

end

end Expr

end RigExpr
