import RigExpr.Expr.Basic

/-!
# Negations moved into numbers

Moving negations into numbers works on the tokens of an expression, and still gives the
tokens of an expression (`Expr.tokens_folded`): the one where a negated number, in
parentheses or not, is the number with its sign turned. Only the innermost of several
negations goes, and a number elsewhere stays as it is, as no token after it is a negation.
So it is for statements (`Statement.tokens_folded`).
-/

namespace RigExpr

namespace Expr

/-- The text of a number, in parentheses or not. -/
def literal? : Expr → Option String
  | number text => some text
  | group inner => inner.literal?
  | _ => none

mutual

/-- The expression with negations moved into numbers. -/
def folded : Expr → Expr
  | number text => number text
  | constant c => constant c
  | order o => order o
  | identifier name => identifier name
  | call name args => call name (foldedAll args)
  | list items => list (foldedAll items)
  | group inner => group inner.folded
  | component object which => component object.folded which
  | unary .negate operand =>
    match operand.literal? with
    | some text => number (Token.turnSign text)
    | none => unary .negate operand.folded
  | unary .not operand => unary .not operand.folded
  | binary op lhs rhs => binary op lhs.folded rhs.folded
  | compare test lhs rhs => compare test lhs.folded rhs.folded
  | ternary test lhs rhs ifTrue ifFalse =>
    ternary test lhs.folded rhs.folded ifTrue.folded ifFalse.folded

/-- The expressions with negations moved into numbers. -/
def foldedAll : List Expr → List Expr
  | [] => []
  | e :: rest => e.folded :: foldedAll rest

end

@[simp] theorem length_foldedAll (es : List Expr) : (foldedAll es).length = es.length := by
  induction es with
  | nil => rfl
  | cons e es ih => rw [foldedAll, List.length_cons, ih, List.length_cons]

theorem tokens_of_literal? {e : Expr} {text : String} (h : e.literal? = some text) :
    e.tokens = [.number text] := by
  fun_induction literal? e with
  | case1 text' => cases h; rfl
  | case2 inner ih => exact ih h
  | case3 => cases h

/-- The tokens do not start with a negation. -/
def Leads (tokens : List Token) : Prop := ∃ t rest, tokens = t :: rest ∧ t ≠ .negate

theorem Leads.append {tokens : List Token} (h : Leads tokens) (rest : List Token) :
    Leads (tokens ++ rest) := by
  obtain ⟨t, more, rfl, ht⟩ := h
  exact ⟨t, more ++ rest, rfl, ht⟩

mutual

/-- No expression starts with a negation. -/
theorem leads_tokens : (e : Expr) → Leads e.tokens
  | number _ | constant _ | order _ | identifier _ => ⟨_, _, rfl, nofun⟩
  | call _ args => leads_tokensAll args nofun
  | list items => leads_tokensAll items nofun
  | group inner => leads_tokens inner
  | component object _ => (leads_tokens object).append _
  | unary _ operand => (leads_tokens operand).append _
  | binary _ lhs _ => ((leads_tokens lhs).append _).append _
  | compare _ lhs _ => ((leads_tokens lhs).append _).append _
  | ternary _ lhs _ _ _ =>
    (((((leads_tokens lhs).append _).append _).append _).append _).append _

theorem leads_tokensAll : (es : List Expr) → {t : Token} → t ≠ .negate →
    Leads (tokensAll es ++ [t])
  | [], t, ht => ⟨t, [], rfl, ht⟩
  | e :: es, _, _ => by
    rw [tokensAll, List.append_assoc]
    exact (leads_tokens e).append _

end

/-! ## The tokens -/

open Token (foldNegation)

/-- The token is neither a number nor a negation, so that folding does not touch it. -/
def Apart : Token → Prop
  | .number _ | .negate => False
  | _ => True

theorem foldNegation_cons {t : Token} (ht : Apart t) (rest : List Token) :
    foldNegation (t :: rest) = t :: foldNegation rest := by
  cases t <;> first | rfl | exact absurd ht id

/-- The tokens of the expression are folded apart from those after it, unless it is a
    number and a negation follows. -/
def FoldsApart (e : Expr) : Prop :=
  ∀ rest, e.literal? = none ∨ Leads rest ∨ rest = [] →
    foldNegation (e.tokens ++ rest) = e.folded.tokens ++ foldNegation rest

namespace FoldsApart

variable {e : Expr} (h : e.FoldsApart)

include h

theorem cons {t : Token} (ht : Apart t) (rest : List Token) :
    foldNegation (e.tokens ++ t :: rest) = e.folded.tokens ++ t :: foldNegation rest := by
  have hne : t ≠ .negate := by
    rintro rfl
    exact ht
  rw [h _ (.inr (.inl ⟨t, rest, rfl, hne⟩)), foldNegation_cons ht]

theorem operand (next : Expr) (rest : List Token) :
    foldNegation (e.tokens ++ (next.tokens ++ rest)) =
      e.folded.tokens ++ foldNegation (next.tokens ++ rest) :=
  h _ (.inr (.inl ((leads_tokens next).append rest)))

end FoldsApart

theorem foldsApart_number (text : String) : (number text).FoldsApart := by
  rintro rest (h | ⟨t, more, rfl, ht⟩ | rfl)
  · cases h
  · cases t <;> first | rfl | exact absurd rfl ht
  · rfl

mutual

theorem foldsApart : (e : Expr) → e.FoldsApart
  | number text => foldsApart_number text
  | constant _ | order _ | identifier _ => fun _ _ => rfl
  | call name args => fun rest _ => by
    simp only [tokens, folded, List.append_assoc, List.singleton_append, length_foldedAll]
    exact foldsApartAll args (t := .call name args.length) trivial rest
  | list items => fun rest _ => by
    simp only [tokens, folded, List.append_assoc, List.singleton_append, length_foldedAll]
    exact foldsApartAll items (t := .list items.length) trivial rest
  | group inner => foldsApart inner
  | component object which => fun rest _ => by
    simp only [tokens, folded, List.append_assoc, List.singleton_append]
    exact (foldsApart object).cons (t := .component which) trivial rest
  | unary .negate operand => fun rest _ => by
    simp only [tokens, folded, List.append_assoc, List.singleton_append]
    split
    · next text htext =>
      rw [tokens_of_literal? htext]
      rfl
    · next hnone =>
      rw [foldsApart operand _ (.inl hnone), tokens, List.append_assoc]
      rfl
  | unary .not operand => fun rest _ => by
    simp only [tokens, folded, List.append_assoc, List.singleton_append]
    exact (foldsApart operand).cons (t := .not) trivial rest
  | binary op lhs rhs => fun rest _ => by
    simp only [tokens, folded, List.append_assoc, List.singleton_append]
    rw [(foldsApart lhs).operand, (foldsApart rhs).cons (t := .binary op) trivial]
  | compare test lhs rhs => fun rest _ => by
    simp only [tokens, folded, List.append_assoc, List.cons_append, List.nil_append]
    rw [(foldsApart lhs).operand, (foldsApart rhs).cons (t := .comparison test) trivial]
    rfl
  | ternary test lhs rhs ifTrue ifFalse => fun rest _ => by
    simp only [tokens, folded, List.append_assoc, List.cons_append, List.nil_append]
    rw [(foldsApart lhs).operand, (foldsApart rhs).cons (t := .comparison test) trivial,
      (foldsApart ifTrue).operand, (foldsApart ifFalse).cons (t := .ternary) trivial]

theorem foldsApartAll : (es : List Expr) → {t : Token} → Apart t → (rest : List Token) →
    foldNegation (tokensAll es ++ t :: rest) =
      tokensAll (foldedAll es) ++ t :: foldNegation rest
  | [], _, ht, rest => foldNegation_cons ht rest
  | e :: es, t, ht, rest => by
    have hne : t ≠ .negate := by
      rintro rfl
      exact ht
    have hleads : Leads (tokensAll es ++ t :: rest) := by
      rw [← List.singleton_append, ← List.append_assoc]
      exact (leads_tokensAll es hne).append rest
    rw [tokensAll, foldedAll, tokensAll, List.append_assoc, List.append_assoc,
      foldsApart e _ (.inr (.inl hleads)), foldsApartAll es ht]

end

/-- Folding the tokens of an expression gives those of the folded expression. -/
theorem tokens_folded (e : Expr) : e.folded.tokens = foldNegation e.tokens := by
  have h := foldsApart e [] (.inr (.inr rfl))
  rw [List.append_nil] at h
  rw [h, foldNegation, List.append_nil]

/-- The assignment after an expression is not touched. -/
theorem foldNegation_assignment (e : Expr) (name : String) :
    foldNegation (e.tokens ++ [.identifier name, .assign]) =
      e.folded.tokens ++ [.identifier name, .assign] :=
  (foldsApart e).cons (t := .identifier name) trivial [.assign]

end Expr

namespace Statement

/-- The statement with negations moved into numbers. -/
def folded (s : Statement) : Statement := { s with expression := s.expression.folded }

theorem tokens_folded (s : Statement) : s.folded.tokens = Token.foldNegation s.tokens := by
  obtain ⟨destination, e⟩ := s
  cases destination with
  | none =>
    rw [folded, tokens, tokens, assignment, assignment, List.append_nil, List.append_nil]
    exact e.tokens_folded
  | some name => exact (e.foldNegation_assignment name).symm

end Statement

end RigExpr
