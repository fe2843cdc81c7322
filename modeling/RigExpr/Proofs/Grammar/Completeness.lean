import RigExpr.Proofs.Grammar.Soundness

/-!
# What is derivable is accepted

A parser is *complete* for a nonterminal if it succeeds on the lexemes of each
derivation, provided that what follows them is nothing the derivation could go on
with, and leaves just what follows. Nesting is limited, so a parser is complete
below a number of lexemes: each level of nesting has lexemes of its own, and so
does each operator in front of an operand.

* `complete_expression`: with room for as many levels as there are lexemes, and
  one more, expressions are accepted.
-/

namespace RigExpr

namespace Parser

open Grammar Derivation

variable {x : Extent} {nested : Parser Expr} {b : Nat}

/-- A parser accepts the lexemes of every derivation of fewer than `b`, followed by
    none that the derivation could go on with, and leaves what follows. -/
def CompleteBelow (b : Nat) (p : Parser Expr) (n : Nonterminal) : Prop :=
  ∀ ⦃d : Derivation n⦄ ⦃input : List Located⦄ ⦃ls : List Lexeme⦄,
    lexemes input = d.lexemes ++ ls → d.lexemes.length < b → Stops n ls →
      ∃ e rest, p input = .ok (e, rest) ∧ lexemes rest = ls

theorem exists_of_lexemes_eq_cons {input : List Located} {l : Lexeme} {ls : List Lexeme}
    (h : lexemes input = l :: ls) :
    ∃ first rest, input = first :: rest ∧ first.lexeme = l ∧ lexemes rest = ls :=
  List.map_eq_cons_iff.1 h

theorem eq_nil_of_lexemes_eq_nil {input : List Located} (h : lexemes input = []) : input = [] :=
  List.map_eq_nil_iff.1 h

theorem length_lexemes (input : List Located) : (lexemes input).length = input.length :=
  List.length_map ..

theorem complete_expect (x : Extent) {s : Symbol} (scope : Scope) {input : List Located}
    {ls : List Lexeme} (h : lexemes input = .symbol s :: ls) :
    ∃ rest, expect x s scope input = .ok ((), rest) ∧ lexemes rest = ls := by
  obtain ⟨l, rest, rfl, hl, hr⟩ := exists_of_lexemes_eq_cons h
  exact ⟨rest, if_pos hl, hr⟩

/-! ## Operands -/

theorem unary?_eq_none {l : Lexeme} (h : ∀ op : UnaryOp, l ≠ .symbol op.sign) :
    unary? l = none := by
  cases hu : unary? l with
  | none => rfl
  | some op => exact absurd ((unary?_eq_some_iff l op).1 hu) (h op)

/-- The operators in front are all taken, where an operand starts after them. -/
theorem prefixes_eq {input : List Located} {ops : List UnaryOp} {ls : List Lexeme}
    (h : lexemes input = signs ops ++ ls)
    (hs : ∀ l ∈ ls.head?, ∀ op : UnaryOp, l ≠ .symbol op.sign) :
    (prefixes input).1 = ops ∧ lexemes (prefixes input).2 = ls := by
  induction ops generalizing input with
  | nil =>
    cases input with
    | nil => exact ⟨rfl, h⟩
    | cons l inner =>
      have hl : l.lexeme :: lexemes inner = ls := h
      have hu : unary? l.lexeme = none := unary?_eq_none (hs _ (by rw [← hl]; rfl))
      rw [prefixes, hu]
      exact ⟨rfl, hl⟩
  | cons op ops ih =>
    obtain ⟨l, inner, rfl, hl, hi⟩ := exists_of_lexemes_eq_cons h
    obtain ⟨ho, hr⟩ := ih hi
    rw [prefixes, (unary?_eq_some_iff _ op).2 hl]
    exact ⟨by rw [ho], hr⟩

theorem complete_accesses {names : List String} (object : Expr) {input : List Located}
    {ls : List Lexeme} (h : lexemes input = Derivation.accesses names ++ ls)
    (hs : Stops .unary ls) :
    ∃ e rest, accesses x object input = .ok (e, rest) ∧ lexemes rest = ls := by
  induction names generalizing object input with
  | nil =>
    have stays {l : Located} {inner : List Located} (h : lexemes (l :: inner) = ls) :
        l.lexeme ≠ .symbol .dot := by
      intro hl
      rw [← h, lexemes_cons, hl] at hs
      exact absurd hs (Nat.lt_irrefl 1)
    match input with
    | [] => exact ⟨object, [], rfl, h⟩
    | [l] => exact ⟨object, [l], if_neg (stays h), h⟩
    | l :: name :: inner => exact ⟨object, l :: name :: inner, if_neg (stays h), h⟩
  | cons name names ih =>
    obtain ⟨l, after, rfl, hl, ha⟩ := exists_of_lexemes_eq_cons h
    obtain ⟨l', inner, rfl, hl', hi⟩ := exists_of_lexemes_eq_cons ha
    rw [accesses, if_pos hl, hl']
    exact ih _ hi

/-- The lexeme that ends a list does not start an expression. -/
theorem ne_close {close : Symbol} (hc : 9 < rank (.symbol close)) {l : Lexeme} (hl : rank l ≤ 9) :
    l ≠ .symbol close := by
  rintro rfl
  exact absurd hc (Nat.not_lt.2 hl)

theorem complete_items (hn : CompleteBelow b nested .expression) {close : Symbol} (scope : Scope)
    (hc : 9 < rank (.symbol close)) {first : Derivation .expression} {more : Derivation .further}
    {fuel : Nat} {input : List Located} {ls : List Lexeme}
    (h : lexemes input = first.lexemes ++ (more.lexemes ++ .symbol close :: ls))
    (hb : (first.lexemes ++ more.lexemes).length < b) (hf : more.lexemes.length < fuel) :
    ∃ es rest, items x close scope nested fuel input = .ok (es, rest) ∧ lexemes rest = ls := by
  induction fuel generalizing first more input with
  | zero => exact absurd hf (Nat.not_lt_zero _)
  | succ fuel ih =>
    rw [List.length_append] at hb
    obtain ⟨item, after, hi, ha⟩ := hn h (by omega) (stops_further more (stops_symbol hc))
    cases more with
    | noFurther =>
      obtain ⟨l, rest, rfl, hl, hr⟩ := exists_of_lexemes_eq_cons ha
      have hcomma : l.lexeme ≠ .symbol .comma := by
        rw [hl]
        exact (ne_close hc (l := .symbol .comma) (by decide)).symm
      refine ⟨[item], rest, ?_, hr⟩
      rw [items, hi]
      simp only [bind, Except.bind, if_neg hcomma, if_pos hl]
    | further next others =>
      obtain ⟨l, rest, rfl, hl, hr⟩ := exists_of_lexemes_eq_cons ha
      obtain ⟨n, ns, hns, hrank⟩ := exists_cons next rfl
      have hnext : lexemes rest = n :: (ns ++ others.lexemes ++ .symbol close :: ls) := by
        rw [hr, hns]
        simp
      obtain ⟨l', rest', rfl, hl', -⟩ := exists_of_lexemes_eq_cons hnext
      have hlen : (Derivation.further next others).lexemes.length =
          (next.lexemes ++ others.lexemes).length + 1 := rfl
      rw [List.length_append] at hlen
      have hr : lexemes (l' :: rest') =
          next.lexemes ++ (others.lexemes ++ .symbol close :: ls) := by
        rw [hr]
        simp
      obtain ⟨es, end_, he, hend⟩ := ih hr (by rw [List.length_append]; omega) (by omega)
      refine ⟨item :: es, end_, ?_, hend⟩
      rw [items, hi]
      have hnot : l'.lexeme ≠ .symbol close := hl' ▸ ne_close hc hrank
      simp only [bind, Except.bind, if_pos hl, if_neg hnot, he]

theorem complete_arguments (hn : CompleteBelow b nested .expression) {close : Symbol}
    (scope : Scope) (hc : 9 < rank (.symbol close)) {d : Derivation .arguments}
    {input : List Located} {ls : List Lexeme}
    (h : lexemes input = d.lexemes ++ .symbol close :: ls) (hb : d.lexemes.length < b) :
    ∃ es rest, arguments x close scope nested input = .ok (es, rest) ∧ lexemes rest = ls := by
  cases d with
  | noArgument =>
    obtain ⟨l, rest, rfl, hl, hr⟩ := exists_of_lexemes_eq_cons h
    exact ⟨[], rest, if_pos hl, hr⟩
  | argument first more =>
    obtain ⟨l, tail, hl, hrank⟩ := exists_cons first rfl
    have h : lexemes input = first.lexemes ++ (more.lexemes ++ .symbol close :: ls) := by
      rw [h]
      simp [Derivation.lexemes]
    have hlen : more.lexemes.length < input.length := by
      rw [← length_lexemes, h]
      simp
      omega
    obtain ⟨es, rest, he, hr⟩ := complete_items hn scope hc h hb hlen
    refine ⟨es, rest, ?_, hr⟩
    rw [hl] at h
    obtain ⟨l', inner, rfl, hl', -⟩ := exists_of_lexemes_eq_cons h
    rw [arguments, if_neg (hl' ▸ ne_close hc hrank)]
    exact he

theorem complete_atom (hn : CompleteBelow b nested .expression) :
    CompleteBelow (b + 1) (atom x nested) .atom := by
  intro d input ls h hb hs
  cases d with
  | number text =>
    obtain ⟨l, rest, rfl, hl, hr⟩ := exists_of_lexemes_eq_cons h
    exact ⟨.number text, rest, by rw [atom, hl], hr⟩
  | word text =>
    obtain ⟨l, rest, rfl, hl, hr⟩ := exists_of_lexemes_eq_cons h
    refine ⟨ofWord text, rest, ?_, hr⟩
    rw [atom, hl]
    cases rest with
    | nil => rfl
    | cons next inner =>
      -- a parenthesis would make it a call
      have hnext : next.lexeme ≠ .symbol .openParen := by
        intro hnext
        rw [← show _ = ls from hr, lexemes_cons, hnext] at hs
        exact absurd hs (Nat.lt_irrefl 0)
      simp only [if_neg hnext]
  | call name args =>
    have h : lexemes input =
        .word name :: .symbol .openParen :: (args.lexemes ++ .symbol .closeParen :: ls) := by
      rw [h]
      simp [Derivation.lexemes]
    obtain ⟨l, after, rfl, hl, ha⟩ := exists_of_lexemes_eq_cons h
    obtain ⟨l', inner, rfl, hl', hi⟩ := exists_of_lexemes_eq_cons ha
    have hlen : args.lexemes.length < b := by
      simp [Derivation.lexemes] at hb
      omega
    obtain ⟨es, rest, he, hr⟩ := complete_arguments (x := x) hn .arguments (by decide) hi hlen
    refine ⟨.call name es, rest, ?_, hr⟩
    rw [atom, hl]
    simp only [if_pos hl', he, bind, Except.bind]
  | list args =>
    have h : lexemes input =
        .symbol .openBracket :: (args.lexemes ++ .symbol .closeBracket :: ls) := by
      rw [h]
      simp [Derivation.lexemes]
    obtain ⟨l, inner, rfl, hl, hi⟩ := exists_of_lexemes_eq_cons h
    have hlen : args.lexemes.length < b := by
      simp [Derivation.lexemes] at hb
      omega
    obtain ⟨es, rest, he, hr⟩ := complete_arguments (x := x) hn .listLiteral (by decide) hi hlen
    refine ⟨.list es, rest, ?_, hr⟩
    rw [atom, hl]
    simp only [he, bind, Except.bind]
  | group inner =>
    have h : lexemes input =
        .symbol .openParen :: (inner.lexemes ++ .symbol .closeParen :: ls) := by
      rw [h]
      simp [Derivation.lexemes]
    obtain ⟨l, after, rfl, hl, hi⟩ := exists_of_lexemes_eq_cons h
    have hlen : inner.lexemes.length < b := by
      simp [Derivation.lexemes] at hb
      omega
    obtain ⟨e, rest, he, hr⟩ := hn hi hlen (stops_symbol (by decide))
    obtain ⟨rest', hc, hr'⟩ := complete_expect x .group hr
    refine ⟨.group e, rest', ?_, hr'⟩
    rw [atom, hl]
    simp only [he, hc, bind, Except.bind]

theorem complete_unary (hn : CompleteBelow b nested .expression) (hb : b ≤ x.limit) :
    CompleteBelow (b + 1) (unary x nested) .unary := by
  intro d input ls h hlen hs
  cases d with
  | unary ops object names =>
    simp only [Derivation.lexemes, List.append_assoc] at h
    simp only [Derivation.lexemes, List.length_append, signs, List.length_map] at hlen
    obtain ⟨ho, hp⟩ := prefixes_eq h (head_of_atom object _)
    obtain ⟨e, after, he, ha⟩ := complete_atom (x := x) hn hp (by omega) (stops_accesses hs)
    obtain ⟨e', rest, he', hr⟩ := complete_accesses (x := x) e ha hs
    refine ⟨ops.foldr .unary e', rest, ?_, hr⟩
    have hlimit : ¬x.limit < ops.length := by omega
    rw [unary]
    simp only [ho, if_neg hlimit, he, he', bind, Except.bind]

theorem complete_powers {base right : Parser Expr} (hbase : CompleteBelow (b + 1) base .unary)
    (hright : CompleteBelow b right .exponent) :
    CompleteBelow (b + 1) (powers base right) .exponent := by
  intro d input ls h hlen hs
  cases d with
  | base operand =>
    obtain ⟨e, rest, he, hr⟩ := hbase h hlen (hs.mono (by decide))
    refine ⟨e, rest, ?_, hr⟩
    rw [powers, he]
    cases rest with
    | nil => rfl
    | cons l inner =>
      have hl : l.lexeme ≠ .symbol .caret := by
        intro hl
        rw [← hr, lexemes_cons, hl] at hs
        exact absurd hs (Nat.lt_irrefl 2)
      simp only [if_neg hl, bind, Except.bind]
  | power operand exponent =>
    simp only [Derivation.lexemes, List.append_assoc, List.cons_append] at h
    simp only [Derivation.lexemes, List.length_append, List.length_cons] at hlen
    obtain ⟨e, after, he, ha⟩ := hbase h (by omega) (stops_symbol (by decide))
    obtain ⟨l, inner, rfl, hl, hi⟩ := exists_of_lexemes_eq_cons ha
    obtain ⟨e', rest, he', hr⟩ := hright hi (by omega) hs
    refine ⟨.binary .power e e', rest, ?_, hr⟩
    rw [powers, he]
    simp only [if_pos hl, he', bind, Except.bind]

/-! ## Levels of operators -/

theorem operator?_eq_none {t : Tier} {l : Lexeme} (h : t.rank < rank l) : t.operator? l = none := by
  cases ho : t.operator? l with
  | none => rfl
  | some op =>
    obtain ⟨rfl, ht⟩ := (operator?_eq_some_iff t l op).1 ho
    exact absurd h (Nat.not_lt.2 (Nat.le_of_eq (rank_sign_of_tier? ht)))

theorem complete_chain {t : Tier} {operand : Parser Expr}
    (ho : CompleteBelow b operand t.operand) {d : Derivation (.links t)} {fuel : Nat} (lhs : Expr)
    {input : List Located} {ls : List Lexeme} (h : lexemes input = d.lexemes ++ ls)
    (hlen : d.lexemes.length < b) (hf : d.lexemes.length ≤ fuel) (hs : Stops (.links t) ls) :
    ∃ e rest, chain t.operator? operand fuel lhs input = .ok (e, rest) ∧ lexemes rest = ls := by
  induction fuel generalizing d lhs input with
  | zero =>
    cases d with
    | noLink => exact ⟨lhs, input, rfl, h⟩
    | link => exact absurd hf (Nat.not_succ_le_zero _)
  | succ fuel ih =>
    cases d with
    | noLink =>
      refine ⟨lhs, input, ?_, h⟩
      cases input with
      | nil => rfl
      | cons l rest =>
        rw [← show _ = ls from h] at hs
        rw [chain, operator?_eq_none hs]
    | link op ht next links =>
      simp only [Derivation.lexemes, List.append_assoc, List.cons_append] at h
      simp only [Derivation.lexemes, List.length_append, List.length_cons] at hlen hf
      obtain ⟨l, inner, rfl, hl, hi⟩ := exists_of_lexemes_eq_cons h
      obtain ⟨e, after, he, ha⟩ := ho hi (by omega) (stops_links links hs)
      obtain ⟨e', rest, he', hr⟩ := ih (.binary op lhs e) ha (by omega) (by omega)
      refine ⟨e', rest, ?_, hr⟩
      rw [chain, (operator?_eq_some_iff t _ op).2 ⟨hl, ht⟩]
      simp only [he, he', bind, Except.bind]

theorem complete_leftward {t : Tier} {operand : Parser Expr}
    (ho : CompleteBelow b operand t.operand) :
    CompleteBelow b (leftward t.operator? operand) (.chain t) := by
  intro d input ls h hlen hs
  cases d with
  | chain first links =>
    simp only [Derivation.lexemes, List.append_assoc] at h
    simp only [Derivation.lexemes, List.length_append] at hlen
    obtain ⟨e, after, he, ha⟩ := ho h (by omega) (stops_links links hs)
    have hf : links.lexemes.length ≤ after.length := by
      rw [← length_lexemes, ha, List.length_append]
      omega
    obtain ⟨e', rest, he', hr⟩ := complete_chain ho e ha (by omega) hf hs
    refine ⟨e', rest, ?_, hr⟩
    rw [leftward]
    simp only [he, he', bind, Except.bind]

theorem complete_logical {exponent : Parser Expr} (he : CompleteBelow b exponent .exponent) :
    CompleteBelow b (logical exponent) (.chain .logical) :=
  have hm : CompleteBelow b (leftward multiplicative? exponent) (.chain .multiplicative) :=
    complete_leftward (t := .multiplicative) he
  have ha : CompleteBelow b (leftward additive? _) (.chain .additive) :=
    complete_leftward (t := .additive) hm
  complete_leftward (t := .logical) ha

theorem comparison?_eq_none {l : Lexeme} (h : 6 < rank l) : comparison? l = none := by
  cases hc : comparison? l with
  | none => rfl
  | some test =>
    obtain rfl := (comparison?_eq_some_iff l test).1 hc
    exact absurd h (Nat.not_lt.2 (Nat.le_of_eq (rank_sign test)))

theorem complete_head_bare {operand : Parser Expr} (ho : CompleteBelow b operand (.chain .logical))
    {d : Derivation (.chain .logical)} {input : List Located} {ls : List Lexeme}
    (h : lexemes input = d.lexemes ++ ls) (hlen : d.lexemes.length < b)
    (hs : Stops .comparison ls) :
    ∃ e rest, head operand input = .ok (.plain e, rest) ∧ lexemes rest = ls := by
  obtain ⟨e, rest, he, hr⟩ := ho h hlen (hs.mono (by decide))
  refine ⟨e, rest, ?_, hr⟩
  rw [head, he]
  cases rest with
  | nil => rfl
  | cons l inner =>
    rw [← hr] at hs
    simp only [bind, Except.bind, comparison?_eq_none hs]

theorem complete_head_compared {operand : Parser Expr}
    (ho : CompleteBelow b operand (.chain .logical)) {d d' : Derivation (.chain .logical)}
    {test : Comparison} {input : List Located} {ls : List Lexeme}
    (h : lexemes input = d.lexemes ++ .symbol test.sign :: (d'.lexemes ++ ls))
    (hlen : d.lexemes.length < b) (hlen' : d'.lexemes.length < b)
    (hs : Stops (.chain .logical) ls) :
    ∃ lhs rhs rest, head operand input = .ok (.compared test lhs rhs, rest) ∧
      lexemes rest = ls := by
  obtain ⟨lhs, after, he, ha⟩ := ho h hlen (stops_sign test _)
  obtain ⟨l, inner, rfl, hl, hi⟩ := exists_of_lexemes_eq_cons ha
  obtain ⟨rhs, rest, he', hr⟩ := ho hi hlen' hs
  refine ⟨lhs, rhs, rest, ?_, hr⟩
  rw [head, he]
  simp only [bind, Except.bind, (comparison?_eq_some_iff _ test).2 hl, he']

theorem nextIs_question_eq_false {rest : List Located} (h : Stops .expression (lexemes rest)) :
    nextIs .question rest = false := by
  cases hq : nextIs .question rest with
  | false => rfl
  | true =>
    rw [nextIs_eq_true_iff.1 hq] at h
    exact absurd h (Nat.lt_irrefl 7)

theorem complete_conditional {exponent : Parser Expr}
    (he : CompleteBelow (b + 1) exponent .exponent) (hn : CompleteBelow b nested .expression) :
    CompleteBelow (b + 1) (conditional x exponent nested) .expression := by
  intro d input ls h hlen hs
  have hl := complete_logical he
  cases d with
  | plain c =>
    cases c with
    | bare operand =>
      obtain ⟨e, rest, hh, hr⟩ := complete_head_bare hl h hlen (hs.mono (by decide))
      refine ⟨e, rest, ?_, hr⟩
      rw [← hr] at hs
      rw [conditional, hh]
      simp [bind, Except.bind, nextIs_question_eq_false hs]
    | compared lhs test rhs =>
      simp only [Derivation.lexemes, List.append_assoc, List.cons_append] at h
      simp only [Derivation.lexemes, List.length_append, List.length_cons] at hlen
      obtain ⟨e, e', rest, hh, hr⟩ :=
        complete_head_compared hl h (by omega) (by omega) (hs.mono (by decide))
      refine ⟨.compare test e e', rest, ?_, hr⟩
      rw [← hr] at hs
      rw [conditional, hh]
      simp [bind, Except.bind, nextIs_question_eq_false hs]
  | ternary lhs test rhs ifTrue ifFalse =>
    simp only [Derivation.lexemes, List.append_assoc, List.cons_append] at h
    simp only [Derivation.lexemes, List.length_append, List.length_cons] at hlen
    obtain ⟨e, e', after, hh, ha⟩ :=
      complete_head_compared hl h (by omega) (by omega) (stops_symbol (by decide))
    obtain ⟨l, inner, rfl, hq, hi⟩ := exists_of_lexemes_eq_cons ha
    obtain ⟨e₁, after₁, h₁, ha₁⟩ := hn hi (by omega) (stops_symbol (by decide))
    obtain ⟨after₂, h₂, ha₂⟩ := complete_expect x .ternary ha₁
    obtain ⟨e₃, rest, h₃, hr⟩ := hn ha₂ (by omega) hs
    refine ⟨.ternary test e e' e₁ e₃, rest, ?_, hr⟩
    have hnext : nextIs .question (l :: inner) = true := by simp [nextIs, hq]
    rw [conditional, hh]
    simp only [bind, Except.bind, hnext, if_true, List.tail_cons, h₁, h₂, h₃]

/-! ## Nesting -/

/-- Below the limit, with room for `room` more levels, expressions of fewer lexemes
    are accepted, and so are exponents. -/
theorem complete_nesting {room : Nat} (hroom : room ≤ x.limit) :
    CompleteBelow room (expression x room) .expression ∧
      CompleteBelow room (deeper x room) .exponent := by
  induction room with
  | zero => exact ⟨fun _ _ _ _ h => absurd h (Nat.not_lt_zero _),
      fun _ _ _ _ h => absurd h (Nat.not_lt_zero _)⟩
  | succ room ih =>
    obtain ⟨hexpr, hdeep⟩ := ih (Nat.le_of_succ_le hroom)
    have hexp : CompleteBelow (room + 1) (exponent x room) .exponent := by
      rw [exponent_eq]
      exact complete_powers (complete_unary hexpr (Nat.le_of_succ_le hroom)) hdeep
    rw [expression_succ]
    exact ⟨complete_conditional hexp hexpr, hexp⟩

theorem complete_expression (x : Extent) :
    CompleteBelow x.limit (expression x x.limit) .expression :=
  (complete_nesting (Nat.le_refl _)).1

end Parser

end RigExpr
