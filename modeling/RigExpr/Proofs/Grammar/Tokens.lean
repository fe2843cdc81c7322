import RigExpr.Proofs.Grammar.Sources
import RigExpr.Proofs.Signature

/-!
# The tokens of a source

The tokens of an accepted source are those of its derivation, and so their texts are
the texts of its lexemes (`Statement.isWritten_of_parse`): a number is a numeral, an
identifier is a word and no keyword, and a function or component goes by a word.
-/

namespace RigExpr

namespace Component

theorem text_ofName (name : String) : (ofName name).text = name := by
  unfold ofName
  split
  · next hx => exact hx.symm
  split
  · next hy => exact hy.symm
  split
  · next hz => exact hz.symm
  split
  · next hw => exact hw.symm
  · rfl

end Component

namespace Token

/-- A token with the texts that a source can give it. -/
def IsWritten : Token → Prop
  | number text => Lexeme.IsNumeral text
  | identifier name => Lexeme.IsWord name ∧ ofWord name = identifier name
  | call name _ => Lexeme.IsWord name
  | component which => ∃ name, Lexeme.IsWord name ∧ which = .ofName name
  | _ => True

theorem isWritten_ofWord {text : String} (h : Lexeme.IsWord text) : (ofWord text).IsWritten := by
  cases hword : ofWord text with
  | constant | rotateOrder => trivial
  | identifier name =>
    obtain rfl : text = name := by
      unfold ofWord at hword
      split at hword <;> cases hword
      rfl
    exact ⟨h, hword⟩
  | _ =>
    unfold ofWord at hword
    split at hword <;> cases hword

/-- The name of a component is the word it was read from. -/
theorem IsWritten.hasName {which : Component} (h : (component which).IsWritten) :
    (Primitive.component which).HasName := by
  obtain ⟨name, hname, rfl⟩ := h
  refine ⟨by rw [Component.text_ofName], fun c hc => ?_⟩
  rw [Component.text_ofName] at hc
  rcases hname.mem hc with hc | rfl | rfl
  · refine ⟨isSeparator_eq_false (.inl hc), ?_⟩
    rintro rfl
    exact absurd hc (by decide)
  · exact ⟨by decide, by decide⟩
  · exact ⟨by decide, by decide⟩

/-- Negations moved into numbers leave components as they are. -/
theorem mem_foldNegation {t : Token} (ht : ∀ text, t ≠ .number text) {tokens : List Token}
    (h : t ∈ foldNegation tokens) : t ∈ tokens := by
  fun_induction foldNegation tokens with
  | case1 text rest ih =>
    rcases List.mem_cons.1 h with rfl | h
    · exact absurd rfl (ht _)
    · exact List.mem_cons_of_mem _ (List.mem_cons_of_mem _ (ih h))
  | case2 token rest _ ih =>
    rcases List.mem_cons.1 h with rfl | h
    · exact List.mem_cons_self
    · exact List.mem_cons_of_mem _ (ih h)
  | case3 => exact h

end Token

namespace Grammar

/-- The tokens of a derivation have the texts of its lexemes. -/
theorem Derivation.isWritten_postorder {n : Nonterminal} (d : Derivation n)
    (h : ∀ l ∈ d.lexemes, l.IsWritten) : ∀ t ∈ d.postorder, t.IsWritten := by
  induction d with
  | plain c ih =>
    cases c with
    | bare operand => exact ih h
    | compared lhs test rhs =>
      intro t ht
      simp only [postorder, List.mem_append, List.mem_cons, List.not_mem_nil, or_false] at ht
      rcases ht with (ht | ht) | rfl | rfl | rfl | rfl
      · exact ih h t (by simp [postorder, ht])
      · exact ih h t (by simp [postorder, ht])
      all_goals trivial
  | ternary lhs test rhs ifTrue ifFalse ihl ihr iht ihf =>
    simp only [lexemes, List.mem_append, List.mem_cons] at h
    intro t ht
    simp only [postorder, List.mem_append, List.mem_singleton] at ht
    rcases ht with ((((ht | ht) | rfl) | ht) | ht) | rfl
    · exact ihl (fun l hl => h l (by simp [hl])) t ht
    · exact ihr (fun l hl => h l (by simp [hl])) t ht
    · trivial
    · exact iht (fun l hl => h l (by simp [hl])) t ht
    · exact ihf (fun l hl => h l (by simp [hl])) t ht
    · trivial
  | bare operand ih => exact ih h
  | compared lhs test rhs ihl ihr =>
    simp only [lexemes, List.mem_append, List.mem_cons] at h
    intro t ht
    simp only [postorder, List.mem_append, List.mem_singleton] at ht
    rcases ht with (ht | ht) | rfl
    · exact ihl (fun l hl => h l (by simp [hl])) t ht
    · exact ihr (fun l hl => h l (by simp [hl])) t ht
    · trivial
  | chain first rest ihf ihr | argument first rest ihf ihr =>
    simp only [lexemes, List.mem_append] at h
    intro t ht
    rcases List.mem_append.1 ht with ht | ht
    · exact ihf (fun l hl => h l (.inl hl)) t ht
    · exact ihr (fun l hl => h l (.inr hl)) t ht
  | link op hop operand rest iho ihr =>
    simp only [lexemes, List.mem_append, List.mem_cons] at h
    intro t ht
    simp only [postorder, List.mem_append, List.mem_singleton] at ht
    rcases ht with (ht | rfl) | ht
    · exact iho (fun l hl => h l (by simp [hl])) t ht
    · trivial
    · exact ihr (fun l hl => h l (by simp [hl])) t ht
  | further next rest ihn ihr =>
    simp only [lexemes, List.mem_append, List.mem_cons] at h
    intro t ht
    rcases List.mem_append.1 ht with ht | ht
    · exact ihn (fun l hl => h l (by simp [hl])) t ht
    · exact ihr (fun l hl => h l (by simp [hl])) t ht
  | base operand ih => exact ih h
  | power operand exponent iho ihe =>
    simp only [lexemes, List.mem_append, List.mem_cons] at h
    intro t ht
    simp only [postorder, List.mem_append, List.mem_singleton] at ht
    rcases ht with (ht | ht) | rfl
    · exact iho (fun l hl => h l (by simp [hl])) t ht
    · exact ihe (fun l hl => h l (by simp [hl])) t ht
    · trivial
  | unary ops object names ih =>
    simp only [lexemes, List.mem_append] at h
    intro t ht
    simp only [postorder, List.mem_append, List.mem_map] at ht
    rcases ht with (ht | ⟨name, hname, rfl⟩) | ⟨op, -, rfl⟩
    · exact ih (fun l hl => h l (.inr (.inl hl))) t ht
    · -- a component access has its name from the word after the point
      have hword : (Lexeme.word name).IsWritten :=
        h (.word name) (.inr (.inr (List.mem_flatMap.2 ⟨name, hname, by simp⟩)))
      exact ⟨name, hword, rfl⟩
    · cases op <;> trivial
  | number text =>
    intro t ht
    cases List.mem_singleton.1 ht
    exact h (.number text) List.mem_cons_self
  | word text =>
    intro t ht
    cases List.mem_singleton.1 ht
    exact Token.isWritten_ofWord (h (.word text) List.mem_cons_self)
  | call name args ih =>
    simp only [lexemes, List.mem_append, List.mem_cons] at h
    intro t ht
    rcases List.mem_append.1 ht with ht | ht
    · exact ih (fun l hl => h l (by simp [hl])) t ht
    · cases List.mem_singleton.1 ht
      exact h (.word name) (.inl rfl)
  | list args ih =>
    simp only [lexemes, List.mem_append, List.mem_cons] at h
    intro t ht
    rcases List.mem_append.1 ht with ht | ht
    · exact ih (fun l hl => h l (by simp [hl])) t ht
    · cases List.mem_singleton.1 ht
      trivial
  | group inner ih =>
    simp only [lexemes, List.mem_append, List.mem_cons] at h
    exact ih fun l hl => h l (by simp [hl])
  | noLink | noArgument | noFurther => exact fun t ht => absurd ht List.not_mem_nil

end Grammar

namespace Statement

/-- The tokens of the expression of a source have the texts of its lexemes. -/
theorem isWritten_of_parse {limit : Nat} {source : String} {s : Statement}
    (h : parse limit source = .ok s) : ∀ t ∈ s.expression.tokens, t.IsWritten := by
  rw [parse] at h
  split at h
  · next input hscan =>
    obtain ⟨d, hd, hm⟩ := exists_matches_of_ofLexemes h
    have hwritten : ∀ l ∈ d.expression.lexemes, l.IsWritten := by
      intro l hl
      have hmem : l ∈ Parser.lexemes input := by
        rw [← hd]
        cases d with
        | assignment name e => exact List.mem_cons_of_mem _ (List.mem_cons_of_mem _ hl)
        | value e => exact hl
      obtain ⟨located, hlocated, rfl⟩ := List.mem_map.1 hmem
      exact Lexeme.isWritten_of_scan hscan located hlocated
    rw [hm.tokens_expression]
    exact d.expression.isWritten_postorder hwritten
  · cases h

/-- So have all tokens of the source, except that its destination may be a keyword. -/
theorem isWritten_of_mem_tokens {limit : Nat} {source : String} {s : Statement}
    (h : parse limit source = .ok s) {t : Token} (ht : t ∈ s.tokens)
    (hname : ∀ name, t ≠ .identifier name) : t.IsWritten := by
  rcases List.mem_append.1 ht with ht | ht
  · exact isWritten_of_parse h t ht
  · unfold assignment at ht
    split at ht
    · rcases List.mem_cons.1 ht with rfl | ht
      · exact absurd rfl (hname _)
      · cases List.mem_singleton.1 ht
        trivial
    · cases ht

end Statement

end RigExpr
