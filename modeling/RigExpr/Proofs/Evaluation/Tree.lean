import RigExpr.Expr.Basic
import RigExpr.Proofs.Evaluation.Recursive

/-!
# Evaluation of trees

The recursion on the tokens of an expression takes the same steps as the recursion on
the expression itself (`Expr.evaluate`): operands from the last to the first, and then
the operator. What is left of the tokens is what stood before them.

* `Expr.faithful`: the last operand of a stream that ends in an expression.
* `Expr.evaluate_tokens`: a stream that is an expression.
* `Statement.evaluate_tokens`: a stream that is a statement.
-/

namespace RigExpr

open Evaluation

/-- The primitive of an operator in front of its operand. -/
def UnaryOp.primitive : UnaryOp → Primitive
  | negate => .negate
  | not => .not

namespace Expr

variable {β H : Type}

mutual

/-- Evaluate an expression, its operands from the last to the first, and leave the
    tokens `rest`. -/
def evaluate (rules : Rules β H) : Expr → (rest : List Token) → Step β H (Slot H)
  | number text, rest => do
    leave rest
    match Number.read? text with
    | some x => return some (.scalar x)
    | none => throw (.invalidOperator text)
  | constant c, rest => do
    leave rest
    return some (Evaluation.constant c)
  | order o, rest => do
    leave rest
    return some (.order o)
  | identifier name, rest => do
    leave rest
    rules.identifier name
  | call name args, rest =>
    match Function.ofName? name with
    | none => do
      leave ((tokensAll args).reverse ++ rest)
      throw (.invalidOperator name)
    | some f =>
      if f.arity.accepts args.length then do
        rules.apply (.call f) (← evaluateAll rules args rest)
      else do
        leave ((tokensAll args).reverse ++ rest)
        throw (.arity f.name f.arity args.length)
  | list items, rest =>
    if 2 ≤ items.length ∧ items.length ≤ 4 then do
      rules.apply .list (← evaluateAll rules items rest)
    else do
      leave ((tokensAll items).reverse ++ rest)
      throw (.sequenceLength items.length)
  | group inner, rest => inner.evaluate rules rest
  | component object which, rest => do
    rules.apply (.component which) [← object.evaluate rules rest]
  | unary op operand, rest => do
    rules.apply op.primitive [← operand.evaluate rules rest]
  | binary op lhs rhs, rest => do
    let second ← rhs.evaluate rules (lhs.tokens.reverse ++ rest)
    let first ← lhs.evaluate rules rest
    rules.apply (.binary op) [first, second]
  | compare test lhs rhs, rest => do
    let second ← rhs.evaluate rules (lhs.tokens.reverse ++ rest)
    let first ← lhs.evaluate rules rest
    rules.apply (.condition test) [first, second, some (.bool true), some (.bool false)]
  | ternary test lhs rhs ifTrue ifFalse, rest => do
    let before := rhs.tokens.reverse ++ (lhs.tokens.reverse ++ rest)
    let otherwise ← ifFalse.evaluate rules (ifTrue.tokens.reverse ++ .comparison test :: before)
    let consequent ← ifTrue.evaluate rules (.comparison test :: before)
    let second ← rhs.evaluate rules (lhs.tokens.reverse ++ rest)
    let first ← lhs.evaluate rules rest
    rules.apply (.condition test) [first, second, consequent, otherwise]

/-- Evaluate expressions, the last of them first. -/
def evaluateAll (rules : Rules β H) : List Expr → (rest : List Token) → Step β H (List (Slot H))
  | [], _ => return []
  | e :: es, rest => do
    let values ← evaluateAll rules es (e.tokens.reverse ++ rest)
    let value ← e.evaluate rules rest
    return value :: values

end

variable {rules : Rules β H} {α : Type}

/-! ## Tokens left in between -/

mutual

/-- An expression sets the tokens left before it does anything else. -/
theorem leave_evaluate (tokens : List Token) : (e : Expr) → (rest : List Token) →
    (do leave tokens; e.evaluate rules rest) = e.evaluate rules rest
  | number text, rest | constant c, rest | order o, rest | identifier name, rest => rfl
  | call name args, rest => by
    rw [evaluate]
    split
    · rfl
    · next f hf =>
      split
      · next harity =>
        have hne : args ≠ [] := by
          rintro rfl
          rw [List.length_nil, f.accepts_zero] at harity
          cases harity
        rw [← bind_assoc, leave_evaluateAll tokens args hne rest]
      · rfl
  | list items, rest => by
    rw [evaluate]
    split
    · next harity =>
      have hne : items ≠ [] := by
        rintro rfl
        simp at harity
      rw [← bind_assoc, leave_evaluateAll tokens items hne rest]
    · rfl
  | group inner, rest => by
    rw [evaluate, leave_evaluate tokens inner rest]
  | component object which, rest => by
    rw [evaluate, ← bind_assoc, leave_evaluate tokens object rest]
  | unary op operand, rest => by
    rw [evaluate, ← bind_assoc, leave_evaluate tokens operand rest]
  | binary op lhs rhs, rest => by
    rw [evaluate, ← bind_assoc, leave_evaluate tokens rhs]
  | compare test lhs rhs, rest => by
    rw [evaluate, ← bind_assoc, leave_evaluate tokens rhs]
  | ternary test lhs rhs ifTrue ifFalse, rest => by
    rw [evaluate, ← bind_assoc, leave_evaluate tokens ifFalse]

theorem leave_evaluateAll (tokens : List Token) : (es : List Expr) → es ≠ [] →
    (rest : List Token) → (do leave tokens; evaluateAll rules es rest) = evaluateAll rules es rest
  | [], hne, _ => absurd rfl hne
  | [e], _, rest => by
    simp only [evaluateAll, pure_bind]
    rw [← bind_assoc, leave_evaluate tokens e rest]
  | e :: e' :: es, _, rest => by
    rw [evaluateAll, ← bind_assoc, leave_evaluateAll tokens (e' :: es) (by simp)]

end

theorem leave_evaluate_bind (tokens : List Token) (e : Expr) (rest : List Token)
    (k : Slot H → Step β H α) :
    (do leave tokens; e.evaluate rules rest >>= k) = (e.evaluate rules rest >>= k) := by
  rw [← bind_assoc, leave_evaluate]

/-! ## Operands of a stream -/

open Recursive

/-- The operands of a token, and then what comes next. -/
theorem operand_cons_bind (token : Token) (rest : List Token)
    (k : Slot H → List Token → Step β H α) :
    (operand rules (token :: rest) >>= fun r => k r.1 r.2.1) = (do
      leave rest
      ofToken rules token rest >>= fun r => k r.1 r.2.1) := by
  rw [operand]
  simp only [bind_assoc, pure_bind]

theorem applied_bind (p : Primitive) (n : Nat) (tokens : List Token)
    (k : Slot H → List Token → Step β H α) :
    (applied rules p n tokens >>= fun r => k r.1 r.2.1) = (do
      operands rules n tokens >>= fun r => do k (← rules.apply p r.1.reverse) r.2.1) := by
  rw [applied]
  simp only [bind_assoc, pure_bind]

theorem operands_zero_bind (tokens : List Token) (k : List (Slot H) → List Token → Step β H α) :
    (operands rules 0 tokens >>= fun r => k r.1 r.2.1) = k [] tokens := by
  rw [operands, pure_bind]

theorem operands_succ_bind (n : Nat) (tokens : List Token)
    (k : List (Slot H) → List Token → Step β H α) :
    (operands rules (n + 1) tokens >>= fun r => k r.1 r.2.1) = (do
      operand rules tokens >>= fun r =>
        operands rules n r.2.1 >>= fun r' => k (r.1 :: r'.1) r'.2.1) := by
  rw [operands]
  simp only [bind_assoc, pure_bind]

/-- The last operand to be taken, which is the first in the source. -/
theorem operands_succ_bind_last (n : Nat) (tokens : List Token)
    (k : List (Slot H) → List Token → Step β H α) :
    (operands rules (n + 1) tokens >>= fun r => k r.1 r.2.1) = (do
      operands rules n tokens >>= fun r =>
        operand rules r.2.1 >>= fun r' => k (r.1 ++ [r'.1]) r'.2.1) := by
  induction n generalizing tokens k with
  | zero =>
    rw [operands_succ_bind]
    rw [operands_zero_bind tokens fun values left =>
      operand rules left >>= fun r => k (values ++ [r.1]) r.2.1]
    congr 1
    funext r
    rw [operands_zero_bind r.2.1 fun values left => k (r.1 :: values) left]
    rfl
  | succ n ih =>
    rw [operands_succ_bind (n + 1)]
    rw [operands_succ_bind n tokens fun values left =>
      operand rules left >>= fun r => k (values ++ [r.1]) r.2.1]
    congr 1
    funext r
    rw [ih r.2.1 fun values left => k (r.1 :: values) left]
    rfl

variable (rules α) in
/-- Where a stream ends in the tokens of the expression, its last operand is the
    expression, and what stood before is left. -/
def Faithful (e : Expr) : Prop :=
  ∀ (rest : List Token) (k : Slot H → List Token → Step β H α),
    (operand rules (e.tokens.reverse ++ rest) >>= fun r => k r.1 r.2.1) =
      (e.evaluate rules rest >>= fun value => k value rest)

/-- The same for several expressions, one after the other. -/
theorem operands_bind {es : List Expr} (h : ∀ e ∈ es, e.Faithful rules α) (rest : List Token)
    (k : List (Slot H) → List Token → Step β H α) :
    (operands rules es.length ((tokensAll es).reverse ++ rest) >>= fun r => k r.1 r.2.1) =
      (evaluateAll rules es rest >>= fun values => k values.reverse rest) := by
  induction es generalizing rest k with
  | nil =>
    rw [evaluateAll, pure_bind]
    exact operands_zero_bind rest k
  | cons e es ih =>
    have htokens : (tokensAll (e :: es)).reverse ++ rest =
        (tokensAll es).reverse ++ (e.tokens.reverse ++ rest) := by
      rw [tokensAll, List.reverse_append, List.append_assoc]
    rw [htokens, List.length_cons, operands_succ_bind_last,
      ih (fun e he => h e (List.mem_cons_of_mem _ he)) _ fun values left =>
        operand rules left >>= fun r => k (values ++ [r.1]) r.2.1]
    rw [evaluateAll, bind_assoc]
    congr 1
    funext values
    rw [h e List.mem_cons_self rest fun value left => k (values.reverse ++ [value]) left,
      bind_assoc]
    simp only [pure_bind, List.reverse_cons]

/-- A primitive applied to expressions. -/
theorem applied_tokens_bind (p : Primitive) (es : List Expr) (hne : es ≠ [])
    (h : ∀ e ∈ es, e.Faithful rules α) (rest : List Token)
    (k : Slot H → List Token → Step β H α) :
    (do
      leave ((tokensAll es).reverse ++ rest)
      applied rules p es.length ((tokensAll es).reverse ++ rest) >>= fun r => k r.1 r.2.1) = (do
        let values ← evaluateAll rules es rest
        k (← rules.apply p values) rest) := by
  rw [applied_bind, operands_bind h rest fun values left => do
    k (← rules.apply p values.reverse) left]
  rw [← bind_assoc, leave_evaluateAll _ es hne]
  simp only [List.reverse_reverse]

/-- The choice by a comparison, once its branches are there. -/
theorem condition_tokens_bind (test : Comparison) {lhs rhs : Expr} (hl : lhs.Faithful rules α)
    (hr : rhs.Faithful rules α) (consequent otherwise : Slot H) (rest : List Token)
    (k : Slot H → List Token → Step β H α) :
    (condition (.comparison test :: (rhs.tokens.reverse ++ (lhs.tokens.reverse ++ rest))) >>=
      fun test => operand rules test.2.1 >>= fun second =>
        operand rules second.2.1 >>= fun first => do
          k (← rules.apply (.condition test.1) [first.1, second.1, consequent, otherwise])
            first.2.1) = (do
      let second ← rhs.evaluate rules (lhs.tokens.reverse ++ rest)
      let first ← lhs.evaluate rules rest
      k (← rules.apply (.condition test) [first, second, consequent, otherwise]) rest) := by
  simp only [condition, bind_assoc, pure_bind]
  rw [hr _ fun second left => operand rules left >>= fun first => do
    k (← rules.apply (.condition test) [first.1, second, consequent, otherwise]) first.2.1]
  rw [← bind_assoc, leave_evaluate]
  congr 1
  funext second
  exact hl rest fun first left => do
    k (← rules.apply (.condition test) [first, second, consequent, otherwise]) left

theorem faithful_ternary {test : Comparison} {lhs rhs ifTrue ifFalse : Expr}
    (hl : lhs.Faithful rules α) (hr : rhs.Faithful rules α) (ht : ifTrue.Faithful rules α)
    (hf : ifFalse.Faithful rules α) :
    (ternary test lhs rhs ifTrue ifFalse).Faithful rules α := by
  intro rest k
  have htokens : (ternary test lhs rhs ifTrue ifFalse).tokens.reverse ++ rest =
      .ternary :: (ifFalse.tokens.reverse ++ (ifTrue.tokens.reverse ++ (.comparison test ::
        (rhs.tokens.reverse ++ (lhs.tokens.reverse ++ rest))))) := by
    simp [tokens]
  rw [htokens, operand_cons_bind, ofToken, evaluate]
  simp only [bind_assoc, pure_bind]
  rw [hf _ fun otherwise left => do
    operand rules left >>= fun consequent =>
      condition consequent.2.1 >>= fun test =>
        operand rules test.2.1 >>= fun second =>
          operand rules second.2.1 >>= fun first => do
            k (← rules.apply (.condition test.1)
              [first.1, second.1, consequent.1, otherwise]) first.2.1]
  rw [← bind_assoc, leave_evaluate]
  congr 1
  funext otherwise
  rw [ht _ fun consequent left => do
    condition left >>= fun test =>
      operand rules test.2.1 >>= fun second =>
        operand rules second.2.1 >>= fun first => do
          k (← rules.apply (.condition test.1)
            [first.1, second.1, consequent, otherwise]) first.2.1]
  congr 1
  funext consequent
  exact condition_tokens_bind test hl hr consequent otherwise rest k

theorem faithful_constant (c : Constant) : (constant c).Faithful rules α := by
  intro rest k
  show (operand rules (.constant c :: rest) >>= fun r => k r.1 r.2.1) = _
  rw [operand_cons_bind, evaluate, ofToken]
  simp

/-- A bare comparison is a choice between the truth values. -/
theorem evaluate_compare (test : Comparison) (lhs rhs : Expr) (rest : List Token) :
    (compare test lhs rhs).evaluate rules rest =
      (ternary test lhs rhs (constant .true) (constant .false)).evaluate rules rest := by
  rw [evaluate, evaluate, evaluate, evaluate]
  simp only [bind_assoc, pure_bind, Evaluation.constant]
  rw [leave_evaluate_bind, leave_evaluate_bind]

mutual

/-- Evaluation of the tokens follows the tree. -/
theorem faithful : (e : Expr) → e.Faithful rules α
  | number text => by
    intro rest k
    show (operand rules (.number text :: rest) >>= fun r => k r.1 r.2.1) = _
    rw [operand_cons_bind, evaluate, ofToken]
    cases Number.read? text <;> simp
  | constant c => faithful_constant c
  | order o => by
    intro rest k
    show (operand rules (.rotateOrder o :: rest) >>= fun r => k r.1 r.2.1) = _
    rw [operand_cons_bind, evaluate, ofToken]
    simp
  | identifier name => by
    intro rest k
    show (operand rules (.identifier name :: rest) >>= fun r => k r.1 r.2.1) = _
    rw [operand_cons_bind, evaluate, ofToken]
    simp
  | call name args => by
    intro rest k
    have htokens : (call name args).tokens.reverse ++ rest =
        .call name args.length :: ((tokensAll args).reverse ++ rest) := by
      simp [tokens]
    rw [htokens, operand_cons_bind, evaluate, ofToken]
    cases hf : Function.ofName? name with
    | none => simp
    | some f =>
      by_cases harity : f.arity.accepts args.length = true
      · have hne : args ≠ [] := by
          rintro rfl
          rw [List.length_nil, f.accepts_zero] at harity
          cases harity
        simp only [if_pos harity, bind_assoc]
        exact applied_tokens_bind (.call f) args hne (faithfulAll args) rest k
      · simp [harity]
  | list items => by
    intro rest k
    have htokens : (list items).tokens.reverse ++ rest =
        .list items.length :: ((tokensAll items).reverse ++ rest) := by
      simp [tokens]
    rw [htokens, operand_cons_bind, evaluate, ofToken]
    by_cases harity : 2 ≤ items.length ∧ items.length ≤ 4
    · have hne : items ≠ [] := by
        rintro rfl
        simp at harity
      simp only [if_pos harity, bind_assoc]
      exact applied_tokens_bind .list items hne (faithfulAll items) rest k
    · simp [harity]
  | group inner => faithful inner
  | component object which => by
    intro rest k
    have htokens : (component object which).tokens.reverse ++ rest =
        .component which :: ((tokensAll [object]).reverse ++ rest) := by
      simp [tokens, tokensAll]
    rw [htokens, operand_cons_bind, ofToken]
    refine (applied_tokens_bind (.component which) [object] (by simp)
      (by simpa using faithful object) rest k).trans ?_
    simp [evaluate, evaluateAll]
  | unary op operand => by
    intro rest k
    have htokens : (unary op operand).tokens.reverse ++ rest =
        op.token :: ((tokensAll [operand]).reverse ++ rest) := by
      simp [tokens, tokensAll]
    have htoken : ofToken rules op.token ((tokensAll [operand]).reverse ++ rest) =
        applied rules op.primitive 1 ((tokensAll [operand]).reverse ++ rest) := by
      cases op <;> exact ofToken.eq_def ..
    rw [htokens, operand_cons_bind, htoken]
    refine (applied_tokens_bind op.primitive [operand] (by simp)
      (by simpa using faithful operand) rest k).trans ?_
    simp [evaluate, evaluateAll]
  | binary op lhs rhs => by
    intro rest k
    have htokens : (binary op lhs rhs).tokens.reverse ++ rest =
        .binary op :: ((tokensAll [lhs, rhs]).reverse ++ rest) := by
      simp [tokens, tokensAll]
    rw [htokens, operand_cons_bind, ofToken]
    refine (applied_tokens_bind (.binary op) [lhs, rhs] (by simp)
      (by simpa using ⟨faithful lhs, faithful rhs⟩) rest k).trans ?_
    simp [evaluate, evaluateAll]
  | compare test lhs rhs => by
    intro rest k
    have htokens : (compare test lhs rhs).tokens =
        (ternary test lhs rhs (constant .true) (constant .false)).tokens := by
      simp [tokens]
    rw [htokens, evaluate_compare]
    exact faithful_ternary (faithful lhs) (faithful rhs) (faithful_constant _)
      (faithful_constant _) rest k
  | ternary test lhs rhs ifTrue ifFalse =>
    faithful_ternary (faithful lhs) (faithful rhs) (faithful ifTrue) (faithful ifFalse)

theorem faithfulAll : (es : List Expr) → ∀ e ∈ es, e.Faithful rules α
  | [] => nofun
  | e :: es => by
    intro e' he'
    cases he' with
    | head => exact faithful e
    | tail _ he' => exact faithfulAll es e' he'

end

theorem evaluate_of_reverse_eq {tokens stream : List Token} (h : tokens.reverse = stream) :
    Recursive.evaluate rules tokens = (do
      leave stream
      operand rules stream >>= fun r => pure r.1) := by
  subst h
  rfl

/-- The tokens of an expression, and nothing else. -/
theorem evaluate_tokens (e : Expr) : Recursive.evaluate rules e.tokens = e.evaluate rules [] := by
  have h : e.Faithful rules (Slot H) := e.faithful
  rw [evaluate_of_reverse_eq (List.append_nil _).symm, h [] fun value _ => pure value, bind_pure,
    leave_evaluate]

/-- The tokens of an expression and of an assignment to a name: the name is looked up
    before the expression is evaluated. -/
theorem evaluate_assignment (e : Expr) (name : String) :
    Recursive.evaluate rules (e.tokens ++ [.identifier name, .assign]) = (do
      leave e.tokens.reverse
      let destination ← rules.identifier name
      let source ← e.evaluate rules []
      rules.assign source destination) := by
  have h : e.Faithful rules (Slot H) := e.faithful
  have htokens : (e.tokens ++ [Token.identifier name, .assign]).reverse =
      .assign :: .identifier name :: (e.tokens.reverse ++ []) := by
    simp
  rw [evaluate_of_reverse_eq htokens, operand_cons_bind _ _ fun value _ => pure value, ofToken]
  simp only [bind_assoc, pure_bind, bind_pure]
  rw [operand_cons_bind _ _ fun destination left => operand rules left >>= fun source =>
    rules.assign source.1 destination, ofToken]
  simp only [bind_assoc, pure_bind]
  have hsource (destination : Slot H) := h [] fun source _ => rules.assign source destination
  simp only [hsource, List.append_nil]
  rfl

end Expr

namespace Statement

variable {β H : Type} {rules : Rules β H}

/-- Evaluate a statement. The destination of an assignment is looked up first, and it is
    driven last. -/
def evaluate (rules : Rules β H) (s : Statement) : Step β H (Slot H) :=
  match s.destination with
  | none => s.expression.evaluate rules []
  | some name => do
    leave s.expression.tokens.reverse
    let destination ← rules.identifier name
    let source ← s.expression.evaluate rules []
    rules.assign source destination

theorem evaluate_tokens (s : Statement) :
    Recursive.evaluate rules s.tokens = s.evaluate rules := by
  obtain ⟨destination, e⟩ := s
  cases destination with
  | none =>
    rw [tokens, assignment, List.append_nil]
    exact e.evaluate_tokens
  | some name => exact e.evaluate_assignment name

end Statement

end RigExpr
