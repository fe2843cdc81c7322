import RigExpr.Proofs.Grammar.Completeness
import RigExpr.Proofs.Lexeme

/-!
# Sources and their derivations

A whole source is an expression, or an expression that drives an output. This is
the last production of the grammar, and with it

* `parse_iff_derivation`: a source is accepted just if its lexemes have a
  derivation, the derivation is unique, and what the source says is that
  derivation in post-order.

Nesting costs lexemes, so a limit beyond the number of lexemes is never met.
-/

namespace RigExpr

namespace Grammar

/-- A derivation of a whole source. -/
inductive Source
  /-- A word, an equals sign and the expression that drives the output named. -/
  | assignment (name : String) (e : Derivation .expression)
  | value (e : Derivation .expression)

namespace Source

/-- The expression of a source. -/
def expression : Source → Derivation .expression
  | assignment _ e => e
  | value e => e

/-- The lexemes that a derivation derives. -/
def lexemes : Source → List Lexeme
  | assignment name e => .word name :: .symbol .assign :: e.lexemes
  | value e => e.lexemes

end Source

namespace Derivation

/-- The expression without operators outside an exponent. -/
def ofExponent (d : Derivation .exponent) : Derivation .expression :=
  .plain (.bare (.chain (t := .logical) (.chain (t := .additive) (.chain (t := .multiplicative)
    d .noLink) .noLink) .noLink))

/-- The expression that is a word. -/
def ofWord (name : String) : Derivation .expression :=
  .ofExponent (.base (.unary [] (.word name) []))

theorem lexemes_ofWord (name : String) : (ofWord name).lexemes = [.word name] := rfl

/-- No expression starts with a word and an equals sign: the word would already be
    the whole of it. -/
theorem lexemes_ne_assign (d : Derivation .expression) (name : String) (ls : List Lexeme) :
    d.lexemes ≠ .word name :: .symbol .assign :: ls := by
  intro h
  have h : (ofWord name).lexemes ++ .symbol .assign :: ls = d.lexemes ++ [] := by
    rw [lexemes_ofWord, List.append_nil, h]
    rfl
  obtain ⟨-, hnil⟩ := determined (ofWord name) d h (stops_symbol (by decide)) trivial
  cases hnil

theorem lexemes_injective {n : Nonterminal} {d d' : Derivation n} (h : d.lexemes = d'.lexemes) :
    d = d' := by
  have h : d.lexemes ++ [] = d'.lexemes ++ [] := by rw [h]
  exact (determined d d' h trivial trivial).1

end Derivation

namespace Source

/-- A source has at most one derivation. -/
theorem lexemes_injective {d d' : Source} (h : d.lexemes = d'.lexemes) : d = d' := by
  cases d with
  | assignment name e =>
    cases d' with
    | assignment name' e' =>
      simp only [lexemes, List.cons.injEq, Lexeme.word.injEq, true_and] at h
      rw [h.1, Derivation.lexemes_injective h.2]
    | value e' => exact absurd h.symm (e'.lexemes_ne_assign name _)
  | value e =>
    cases d' with
    | assignment name' e' => exact absurd h (e.lexemes_ne_assign name' _)
    | value e' => rw [Derivation.lexemes_injective h]

end Source

end Grammar

namespace Statement

open Grammar RigExpr.Parser

/-- What a source says is what a derivation says. -/
def Matches (s : Statement) : Source → Prop
  | .assignment name e => s.destination = some name ∧ s.expression.tokens = e.postorder
  | .value e => s.destination = none ∧ s.expression.tokens = e.postorder

theorem Matches.tokens_expression {s : Statement} {d : Source} (h : s.Matches d) :
    s.expression.tokens = d.expression.postorder := by
  cases d <;> exact h.2

/-- The two ways in which a source starts. -/
theorem destination?_cases (input : List Located) :
    (∃ name rest, destination? input = (some name, rest) ∧
      Parser.lexemes input = .word name :: .symbol .assign :: Parser.lexemes rest) ∨
    (destination? input = (none, input) ∧
      ∀ name ls, Parser.lexemes input ≠ .word name :: .symbol .assign :: ls) := by
  match input with
  | [] => exact .inr ⟨rfl, by simp⟩
  | [l] => exact .inr ⟨rfl, by simp⟩
  | first :: second :: rest =>
    rw [destination?]
    split
    · next name h₁ h₂ => exact .inl ⟨name, rest, rfl, by simp [h₁, h₂]⟩
    · next h =>
      refine .inr ⟨rfl, fun name ls heq => ?_⟩
      simp only [lexemes_cons, List.cons.injEq] at heq
      exact h name heq.1 heq.2.1

/-- What an accepted source drives and the expression it has. -/
theorem derivation_of_ofLexemes {x : Extent} {input inner : List Located} {s : Statement}
    {destination : Option String} (hdest : destination? input = (destination, inner))
    (h : ofLexemes x input = .ok s) :
    s.destination = destination ∧
      ∃ e : Derivation .expression, Parser.lexemes inner = e.lexemes ∧
        s.expression.tokens = e.postorder := by
  rw [ofLexemes, hdest] at h
  obtain ⟨⟨e, rest⟩, he, h⟩ := bind_eq_ok.1 h
  cases rest with
  | cons l rest => cases h
  | nil =>
    obtain ⟨d, hd, ht⟩ := sound_expression x x.limit he
    cases h
    exact ⟨rfl, d, by rw [hd, lexemes_nil, List.append_nil], ht⟩

/-- A source that is accepted has a derivation that matches. -/
theorem exists_matches_of_ofLexemes {x : Extent} {input : List Located} {s : Statement}
    (h : ofLexemes x input = .ok s) :
    ∃ d : Source, d.lexemes = Parser.lexemes input ∧ s.Matches d := by
  rcases destination?_cases input with ⟨name, inner, hdest, hl⟩ | ⟨hdest, -⟩
  · obtain ⟨hs, e, he, ht⟩ := derivation_of_ofLexemes hdest h
    exact ⟨.assignment name e, by rw [hl, he]; rfl, hs, ht⟩
  · obtain ⟨hs, e, he, ht⟩ := derivation_of_ofLexemes hdest h
    exact ⟨.value e, he.symm, hs, ht⟩

/-- A source with a derivation is accepted, if the limit is beyond its lexemes. -/
theorem exists_ofLexemes {x : Extent} {input : List Located} (hx : input.length < x.limit)
    {d : Source} (hd : d.lexemes = Parser.lexemes input) : ∃ s, ofLexemes x input = .ok s := by
  have accepted {destination : Option String} {inner : List Located} {e : Derivation .expression}
      (hdest : destination? input = (destination, inner))
      (hi : Parser.lexemes inner = e.lexemes) (hlen : e.lexemes.length ≤ input.length) :
      ∃ s, ofLexemes x input = .ok s := by
    rw [← List.append_nil e.lexemes] at hi
    obtain ⟨expr, rest, he, hr⟩ := complete_expression x hi (by omega) trivial
    obtain rfl := eq_nil_of_lexemes_eq_nil hr
    refine ⟨⟨destination, expr⟩, ?_⟩
    rw [ofLexemes]
    simp only [hdest, he, bind, Except.bind]
  have hlen : d.lexemes.length = input.length := by rw [hd, length_lexemes]
  cases d with
  | assignment name e =>
    obtain ⟨l, after, rfl, hl, ha⟩ := exists_of_lexemes_eq_cons hd.symm
    obtain ⟨l', inner, rfl, hl', hi⟩ := exists_of_lexemes_eq_cons ha
    have hdest : destination? (l :: l' :: inner) = (some name, inner) := by
      rw [destination?, hl, hl']
    exact accepted hdest hi (Nat.le_trans (Nat.le_add_right _ 2) (Nat.le_of_eq hlen))
  | value e =>
    rcases destination?_cases input with ⟨name, inner, -, hl⟩ | ⟨hdest, -⟩
    · exact absurd (hd.trans hl) (e.lexemes_ne_assign name _)
    · exact accepted hdest hd.symm (Nat.le_of_eq hlen)

/-- The assignment of an accepted source is the one its derivation starts with. -/
theorem Matches.assignment_eq_iff {s : Statement} {d : Source} (h : s.Matches d) (name : String) :
    s.assignment = [.identifier name, .assign] ↔
      ∃ ls, d.lexemes = .word name :: .symbol .assign :: ls := by
  cases d with
  | assignment name' e =>
    rw [assignment, h.1]
    simp [Source.lexemes]
  | value e =>
    rw [assignment, h.1]
    simp only [List.nil_eq, reduceCtorEq, false_iff, not_exists]
    exact e.lexemes_ne_assign name

theorem Matches.assignment_eq_nil_iff {s : Statement} {d : Source} (h : s.Matches d) :
    s.assignment = [] ↔ ∀ name ls, d.lexemes ≠ .word name :: .symbol .assign :: ls := by
  cases d with
  | assignment name e =>
    rw [assignment, h.1]
    simp [Source.lexemes]
  | value e =>
    rw [assignment, h.1]
    exact iff_of_true rfl e.lexemes_ne_assign

theorem parse_eq {source : String} {input : List Located} (hs : Lexeme.scan source = .ok input)
    (limit : Nat) : parse limit source = ofLexemes ⟨limit, source.utf8ByteSize⟩ input := by
  rw [parse, hs]

/-- With a nesting limit beyond the number of its lexemes, a source is accepted just
    if its lexemes have a derivation. The derivation is unique, and the source says
    what the derivation does in post-order: the tokens of its expression, and the
    assignment to the word that an equals sign follows at the start. -/
theorem parse_iff_derivation {source : String} {input : List Located}
    (hs : Lexeme.scan source = .ok input) {limit : Nat} (hl : input.length < limit) :
    ((∃ s, parse limit source = .ok s) ↔ ∃ d : Source, d.lexemes = Parser.lexemes input) ∧
    (∀ d d' : Source, d.lexemes = Parser.lexemes input → d'.lexemes = Parser.lexemes input →
      d = d') ∧
    ∀ s, parse limit source = .ok s →
      (∀ d : Source, d.lexemes = Parser.lexemes input →
        s.expression.tokens = d.expression.postorder) ∧
      (∀ name, s.assignment = [.identifier name, .assign] ↔
        ∃ ls, Parser.lexemes input = .word name :: .symbol .assign :: ls) ∧
      (s.assignment = [] ↔
        ∀ name ls, Parser.lexemes input ≠ .word name :: .symbol .assign :: ls) := by
  rw [parse_eq hs]
  refine ⟨⟨?_, ?_⟩, fun d d' h h' => Source.lexemes_injective (h.trans h'.symm), ?_⟩
  · rintro ⟨s, h⟩
    obtain ⟨d, hd, -⟩ := exists_matches_of_ofLexemes h
    exact ⟨d, hd⟩
  · rintro ⟨d, hd⟩
    exact exists_ofLexemes hl hd
  · intro s h
    obtain ⟨d, hd, hm⟩ := exists_matches_of_ofLexemes h
    rw [← hd]
    refine ⟨?_, hm.assignment_eq_iff, hm.assignment_eq_nil_iff⟩
    intro d' hd'
    rw [Source.lexemes_injective hd', hm.tokens_expression]

/-- In `o = -a ^ 2` the base of the power is the negation. -/
theorem parse_iff_derivation_power :
    ∃ input, Lexeme.scan "o = -a ^ 2" = .ok input ∧ input.length < 64 ∧
      ∃ s, parse 64 "o = -a ^ 2" = .ok s ∧
        s.expression.tokens = [.identifier "a", .negate, .number "2", .binary .power] ∧
        s.assignment = [.identifier "o", .assign] := by
  have hs : Lexeme.scan "o = -a ^ 2" = .ok
      [⟨.word "o", ⟨0, 1⟩⟩, ⟨.symbol .assign, ⟨2, 3⟩⟩, ⟨.symbol .minus, ⟨4, 5⟩⟩,
        ⟨.word "a", ⟨5, 6⟩⟩, ⟨.symbol .caret, ⟨7, 8⟩⟩, ⟨.number "2", ⟨9, 10⟩⟩] := by
    rw [Lexeme.scan_eq_scanWithin]
    rfl
  refine ⟨_, hs, by decide, ?_⟩
  obtain ⟨⟨-, accepts⟩, -, meaning⟩ := parse_iff_derivation hs (show _ < 64 by decide)
  let d : Source := .assignment "o" (.ofExponent
    (.power (.unary [.negate] (.word "a") []) (.base (.unary [] (.number "2") []))))
  obtain ⟨s, h⟩ := accepts ⟨d, rfl⟩
  obtain ⟨htokens, hassign, -⟩ := meaning s h
  exact ⟨s, h, htokens d rfl, (hassign "o").2 ⟨_, rfl⟩⟩

end Statement

end RigExpr
