import RigExpr.Proofs.Action
import RigExpr.Proofs.Evaluation.Tree

/-!
# Evaluations step by step

An evaluation consists of what its rules do about identifiers, applications and assignments,
and of failures, one after the other. A relation between two kinds of steps that goes on from
one step to the next (`Congruence`) relates whole evaluations if it relates their rules
(`Congruence.evaluate`): on every stream of tokens, by recursion on them as in the evaluation
itself. Where both steps are the same, such a relation is a property of steps.

An expression has no assignments in it, so that there is nothing to show about them
(`Congruence.expression`).
-/

namespace RigExpr

namespace Evaluation

open Recursive

variable {β β' H : Type}

/-- A relation between steps that holds of what is put together from related steps. -/
structure Congruence (R : ∀ {α : Type}, Step β H α → Step β' H α → Prop) : Prop where
  pure : ∀ {α : Type} (v : α), R (pure v) (pure v)
  throw : ∀ {α : Type} (e : CompileError), R (throw e : Step β H α) (throw e)
  bind : ∀ {α γ : Type} {a : Step β H α} {a' : Step β' H α} {f : α → Step β H γ}
    {f' : α → Step β' H γ}, R a a' → (∀ v, R (f v) (f' v)) → R (a >>= f) (a' >>= f')
  leave : ∀ tokens, R (leave tokens) (leave tokens)

/-- The relation holds of what the rules do about identifiers and applications. -/
structure Rules.Alike (R : ∀ {α : Type}, Step β H α → Step β' H α → Prop) (rules : Rules β H)
    (rules' : Rules β' H) : Prop where
  identifier : ∀ name, R (rules.identifier name) (rules'.identifier name)
  apply : ∀ p operands, R (rules.apply p operands) (rules'.apply p operands)

/-- The relation holds of what the rules do. -/
structure Rules.Related (R : ∀ {α : Type}, Step β H α → Step β' H α → Prop) (rules : Rules β H)
    (rules' : Rules β' H) : Prop extends Rules.Alike R rules rules' where
  assign : ∀ source destination,
    R (rules.assign source destination) (rules'.assign source destination)

namespace Congruence

variable {R : ∀ {α : Type}, Step β H α → Step β' H α → Prop} {rules : Rules β H}
  {rules' : Rules β' H}

variable (R rules rules') in
/-- The relation holds of evaluations of an operand from up to `n` tokens. -/
def UpTo (n : Nat) : Prop :=
  ∀ tokens : List Token, tokens.length ≤ n → R (operand rules tokens) (operand rules' tokens)

theorem operands (hR : Congruence R) {n count : Nat} (ih : UpTo R rules rules' n)
    {tokens : List Token} (htokens : tokens.length ≤ n) :
    R (Recursive.operands rules count tokens) (Recursive.operands rules' count tokens) := by
  induction count generalizing tokens with
  | zero =>
    rw [Recursive.operands, Recursive.operands]
    exact hR.pure _
  | succ count ihcount =>
    rw [Recursive.operands, Recursive.operands]
    refine hR.bind (ih tokens htokens) fun r => ?_
    obtain ⟨value, rest, hrest⟩ := r
    refine hR.bind (ihcount (Nat.le_trans (Nat.le_of_lt hrest) htokens)) fun r => ?_
    obtain ⟨values, left⟩ := r
    exact hR.pure _

theorem applied (hR : Congruence R) (h : Rules.Related R rules rules') (p : Primitive)
    (count : Nat) {tokens : List Token} (ih : UpTo R rules rules' tokens.length) :
    R (Recursive.applied rules p count tokens) (Recursive.applied rules' p count tokens) := by
  rw [Recursive.applied, Recursive.applied]
  refine hR.bind (hR.operands ih (Nat.le_refl _)) fun r => ?_
  obtain ⟨values, left⟩ := r
  exact hR.bind (h.apply p values.reverse) fun value => hR.pure _

theorem condition (hR : Congruence R) (tokens : List Token) :
    R (Recursive.condition tokens) (Recursive.condition tokens) := by
  cases tokens with
  | nil => exact hR.throw _
  | cons token rest =>
    refine hR.bind (hR.leave rest) fun _ => ?_
    cases token with
    | comparison test => exact hR.pure _
    | _ => exact hR.throw _

/-- One token with its operands, if the relation holds of evaluations of operands from the
    tokens before it. -/
theorem ofToken (hR : Congruence R) (h : Rules.Related R rules rules') (token : Token)
    {tokens : List Token} (ih : UpTo R rules rules' tokens.length) :
    R (Recursive.ofToken rules token tokens) (Recursive.ofToken rules' token tokens) := by
  rw [Recursive.ofToken.eq_def rules, Recursive.ofToken.eq_def rules']
  cases token with
  | call name arity =>
    dsimp only
    split
    · exact hR.throw _
    · split
      · exact hR.applied h _ _ ih
      · exact hR.throw _
  | list arity =>
    dsimp only
    split
    · exact hR.applied h _ _ ih
    · exact hR.throw _
  | negate | not | binary | component => exact hR.applied h _ _ ih
  | ternary =>
    refine hR.bind (ih _ (Nat.le_refl _)) fun r => ?_
    obtain ⟨ifFalse, rest, hrest⟩ := r
    refine hR.bind (ih _ (Nat.le_of_lt hrest)) fun r => ?_
    obtain ⟨ifTrue, rest', hrest'⟩ := r
    refine hR.bind (hR.condition rest') fun r => ?_
    obtain ⟨test, before, hbefore⟩ := r
    dsimp only at hrest hrest' hbefore ⊢
    refine hR.bind (ih _ (by omega)) fun r => ?_
    obtain ⟨second, before', hbefore'⟩ := r
    dsimp only
    refine hR.bind (ih _ (by omega)) fun r => ?_
    obtain ⟨first, left, hleft⟩ := r
    exact hR.bind (h.apply _ _) fun value => hR.pure _
  | alternative =>
    refine hR.bind (ih _ (Nat.le_refl _)) fun r => ?_
    obtain ⟨value, left, hleft⟩ := r
    exact hR.pure _
  | assign =>
    refine hR.bind (ih _ (Nat.le_refl _)) fun r => ?_
    obtain ⟨destination, rest, hrest⟩ := r
    refine hR.bind (ih _ (Nat.le_of_lt hrest)) fun r => ?_
    obtain ⟨source, left, hleft⟩ := r
    exact hR.bind (h.assign _ _) fun value => hR.pure _
  | constant | rotateOrder => exact hR.pure _
  | identifier name => exact hR.bind (h.identifier name) fun value => hR.pure _
  | comparison test => exact hR.throw _
  | number text =>
    dsimp only
    split
    · exact hR.pure _
    · exact hR.throw _

theorem upTo (hR : Congruence R) (h : Rules.Related R rules rules') (n : Nat) :
    UpTo R rules rules' n := by
  induction n with
  | zero =>
    intro tokens hn
    rw [List.eq_nil_of_length_eq_zero (Nat.le_zero.1 hn), operand, operand]
    exact hR.throw _
  | succ n ih =>
    intro tokens hn
    rw [operand.eq_def, operand.eq_def rules']
    cases tokens with
    | nil => exact hR.throw _
    | cons token rest =>
      have hrest : UpTo R rules rules' rest.length := fun tokens htokens =>
        ih tokens (Nat.le_trans htokens (Nat.le_of_succ_le_succ hn))
      refine hR.bind (hR.leave rest) fun _ => ?_
      refine hR.bind (hR.ofToken h token hrest) fun r => ?_
      obtain ⟨value, left, hleft⟩ := r
      exact hR.pure _

/-- The relation holds of evaluations if it holds of their rules. -/
theorem evaluate (hR : Congruence R) (h : Rules.Related R rules rules') (tokens : List Token) :
    R (Recursive.evaluate rules tokens) (Recursive.evaluate rules' tokens) := by
  rw [Recursive.evaluate, Recursive.evaluate]
  refine hR.bind (hR.leave _) fun _ => ?_
  refine hR.bind (hR.upTo h _ _ (Nat.le_refl _)) fun r => ?_
  obtain ⟨value, left, hleft⟩ := r
  exact hR.pure _

mutual

/-- The relation holds of evaluations of an expression if it holds of what the rules do about
    identifiers and applications. -/
theorem expression (hR : Congruence R) (h : Rules.Alike R rules rules') : (e : Expr) →
    (rest : List Token) → R (e.evaluate rules rest) (e.evaluate rules' rest)
  | .number text, rest => by
    rw [Expr.evaluate, Expr.evaluate]
    refine hR.bind (hR.leave rest) fun _ => ?_
    cases Number.read? text with
    | some x => exact hR.pure _
    | none => exact hR.throw _
  | .constant _, rest | .order _, rest => hR.bind (hR.leave rest) fun _ => hR.pure _
  | .identifier name, rest => hR.bind (hR.leave rest) fun _ => h.identifier name
  | .call name args, rest => by
    rw [Expr.evaluate, Expr.evaluate]
    split
    · exact hR.bind (hR.leave _) fun _ => hR.throw _
    · split
      · exact hR.bind (hR.expressions h args rest) fun _ => h.apply _ _
      · exact hR.bind (hR.leave _) fun _ => hR.throw _
  | .list items, rest => by
    rw [Expr.evaluate, Expr.evaluate]
    split
    · exact hR.bind (hR.expressions h items rest) fun _ => h.apply _ _
    · exact hR.bind (hR.leave _) fun _ => hR.throw _
  | .group inner, rest => hR.expression h inner rest
  | .component object _, rest => hR.bind (hR.expression h object rest) fun _ => h.apply _ _
  | .unary _ operand, rest => hR.bind (hR.expression h operand rest) fun _ => h.apply _ _
  | .binary _ lhs rhs, rest | .compare _ lhs rhs, rest =>
    hR.bind (hR.expression h rhs _) fun _ =>
    hR.bind (hR.expression h lhs rest) fun _ => h.apply _ _
  | .ternary _ lhs rhs ifTrue ifFalse, rest =>
    hR.bind (hR.expression h ifFalse _) fun _ =>
    hR.bind (hR.expression h ifTrue _) fun _ =>
    hR.bind (hR.expression h rhs _) fun _ =>
    hR.bind (hR.expression h lhs rest) fun _ => h.apply _ _

theorem expressions (hR : Congruence R) (h : Rules.Alike R rules rules') : (es : List Expr) →
    (rest : List Token) → R (Expr.evaluateAll rules es rest) (Expr.evaluateAll rules' es rest)
  | [], _ => hR.pure _
  | e :: es, rest =>
    hR.bind (hR.expressions h es _) fun _ =>
    hR.bind (hR.expression h e rest) fun _ => hR.pure _

end

end Congruence

/-- An evaluation leaves a part of the state as it is if its rules do. -/
theorem leaves_evaluate {ρ : Type} {part : Evaluation β H → ρ} {rules : Rules β H}
    (hleave : ∀ tokens, (leave tokens : Step β H Unit).Leaves part)
    (h : Rules.Related (fun {α} (a _ : Step β H α) => a.Leaves part) rules rules)
    (tokens : List Token) : (Recursive.evaluate rules tokens).Leaves part := by
  have hcongruence : Congruence fun {α} (a _ : Step β H α) => a.Leaves part :=
    { pure := .pure
      throw := .throw
      bind := fun ha hf => .bind ha hf
      leave := hleave }
  exact hcongruence.evaluate h tokens

end Evaluation

end RigExpr
