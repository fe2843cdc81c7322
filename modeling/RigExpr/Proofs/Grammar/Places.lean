import Mathlib.Data.List.Forall2
import RigExpr.Proofs.Grammar.Sources
import RigExpr.Proofs.Number.Text

/-!
# Places do not matter

The places of lexemes go into errors and nowhere else. Parsers that are given the same
lexemes at other places fail together, or parse the same and leave the same (`Parser.Same`);
each parser does so since the parsers that it is given do (`Parser.Agree`). And so an
expression is parsed in the same way wherever it stands: after a name and an equals sign it
is the expression that drives the output of this name (`Statement.parse_assignment`).
-/

namespace RigExpr

/-- The same lexemes, perhaps at other places. -/
abbrev Moved : List Located → List Located → Prop :=
  List.Forall₂ fun l l' => l.lexeme = l'.lexeme

theorem Moved.tail {input input' : List Located} (h : Moved input input') :
    Moved input.tail input'.tail := by
  cases h with
  | nil => exact .nil
  | cons _ hrest => exact hrest

namespace Parser

/-- Two failures, or the same result with the same lexemes after it. -/
inductive Same {α : Type} :
    Except ParseError (α × List Located) → Except ParseError (α × List Located) → Prop
  | ok (a : α) {rest rest' : List Located} (h : Moved rest rest') :
    Same (.ok (a, rest)) (.ok (a, rest'))
  | error (e e' : ParseError) : Same (.error e) (.error e')

/-- The parsers do the same with the same lexemes. -/
def Agree {α : Type} (p p' : Parser α) : Prop :=
  ∀ ⦃input input' : List Located⦄, Moved input input' → Same (p input) (p' input')

theorem Same.bind {α β : Type} {r r' : Except ParseError (α × List Located)} (h : Same r r')
    {k k' : α × List Located → Except ParseError (β × List Located)}
    (hk : ∀ a rest rest', Moved rest rest' → Same (k (a, rest)) (k' (a, rest'))) :
    Same (r >>= k) (r' >>= k') := by
  cases h with
  | ok a hrest => exact hk a _ _ hrest
  | error e e' => exact .error e e'

variable {x x' : Extent} {nested nested' : Parser Expr}

theorem agree_tooDeep {α : Type} : Agree (tooDeep x : Parser α) (tooDeep x') :=
  fun _ _ _ => .error _ _

theorem agree_expect (s : Symbol) (scope : Scope) :
    Agree (expect x s scope) (expect x' s scope) := by
  intro input input' h
  cases h with
  | nil => exact .error _ _
  | @cons l l' _ _ hl hrest =>
    rw [expect, expect, hl]
    by_cases hs : l'.lexeme = .symbol s
    · simp only [if_pos hs]
      exact .ok () hrest
    · simp only [if_neg hs]
      exact .error _ _

theorem nextIs_of_moved {input input' : List Located} (h : Moved input input') (s : Symbol) :
    nextIs s input = nextIs s input' := by
  cases h with
  | nil => rfl
  | cons hl _ => rw [nextIs, nextIs, hl]

/-! ## Operands -/

theorem prefixes_of_moved {input input' : List Located} (h : Moved input input') :
    (prefixes input).1 = (prefixes input').1 ∧ Moved (prefixes input).2 (prefixes input').2 := by
  induction h with
  | nil => exact ⟨rfl, .nil⟩
  | @cons l l' rest rest' hl hrest ih =>
    rw [prefixes, prefixes, hl]
    cases unary? l'.lexeme with
    | some op => exact ⟨congrArg (op :: ·) ih.1, ih.2⟩
    | none => exact ⟨rfl, .cons hl hrest⟩

theorem agree_accesses (object : Expr) : Agree (accesses x object) (accesses x' object) := by
  intro input input' h
  fun_induction accesses x object input generalizing input' with
  | case1 object =>
    cases h
    exact .ok object .nil
  | case2 object l hdot =>
    cases h with
    | cons hl hrest =>
      cases hrest
      rw [accesses, if_pos (hl ▸ hdot)]
      exact .error _ _
  | case3 object l hdot =>
    cases h with
    | cons hl hrest =>
      cases hrest
      rw [accesses, if_neg (hl ▸ hdot)]
      exact .ok object (.cons hl .nil)
  | case4 object l name rest hdot text hname ih =>
    cases h with
    | cons hl h =>
      cases h with
      | cons hl' hrest =>
        rw [accesses, if_pos (hl ▸ hdot), ← hl', hname]
        exact ih hrest
  | case5 object l name rest hdot hname =>
    cases h with
    | cons hl h =>
      cases h with
      | @cons _ name' _ rest' hl' hrest =>
        rw [accesses, if_pos (hl ▸ hdot)]
        split
        · next text htext => exact absurd (hl'.trans htext) (hname text)
        · exact .error _ _
  | case6 object l name rest hdot =>
    cases h with
    | cons hl h =>
      cases h with
      | cons hl' hrest =>
        rw [accesses, if_neg (hl ▸ hdot)]
        exact .ok object (.cons hl (.cons hl' hrest))

theorem agree_items (close : Symbol) (scope : Scope) (hnested : Agree nested nested') (fuel : Nat) :
    Agree (items x close scope nested fuel) (items x' close scope nested' fuel) := by
  induction fuel with
  | zero => exact fun _ _ _ => .error _ _
  | succ fuel ih =>
    intro input input' h
    rw [items, items]
    refine (hnested h).bind fun item rest rest' hrest => ?_
    cases hrest with
    | nil => exact .error _ _
    | @cons l l' rest rest' hl hrest =>
      dsimp only
      rw [hl]
      by_cases hcomma : l'.lexeme = .symbol .comma
      · -- one more item, which must not be the end
        simp only [if_pos hcomma]
        cases hrest with
        | nil => exact (ih .nil).bind fun more _ _ hrest => .ok (item :: more) hrest
        | @cons next next' _ _ hnext hrest =>
          dsimp only
          rw [hnext]
          by_cases hclose : next'.lexeme = .symbol close
          · simp only [if_pos hclose]
            exact .error _ _
          · simp only [if_neg hclose]
            exact (ih (.cons hnext hrest)).bind fun more _ _ hrest => .ok (item :: more) hrest
      · simp only [if_neg hcomma]
        by_cases hclose : l'.lexeme = .symbol close
        · simp only [if_pos hclose]
          exact .ok [item] hrest
        · simp only [if_neg hclose]
          exact .error _ _

theorem agree_arguments (close : Symbol) (scope : Scope) (hnested : Agree nested nested') :
    Agree (arguments x close scope nested) (arguments x' close scope nested') := by
  intro input input' h
  cases h with
  | nil => exact agree_items close scope hnested 1 .nil
  | @cons l l' rest rest' hl hrest =>
    rw [arguments, arguments, hl, hrest.length_eq]
    by_cases hclose : l'.lexeme = .symbol close
    · simp only [if_pos hclose]
      exact .ok [] hrest
    · simp only [if_neg hclose]
      exact agree_items close scope hnested _ (.cons hl hrest)

theorem agree_atom (hnested : Agree nested nested') : Agree (atom x nested) (atom x' nested') := by
  intro input input' h
  cases h with
  | nil => exact .error _ _
  | @cons l l' rest rest' hl hrest =>
    rw [atom, atom, hl]
    cases l'.lexeme with
    | number text => exact .ok _ hrest
    | word text =>
      cases hrest with
      | nil => exact .ok _ .nil
      | @cons next next' _ _ hnext hrest =>
        dsimp only
        rw [hnext]
        by_cases hopen : next'.lexeme = .symbol .openParen
        · simp only [if_pos hopen]
          exact (agree_arguments _ _ hnested hrest).bind fun args _ _ hrest => .ok _ hrest
        · simp only [if_neg hopen]
          exact .ok _ (.cons hnext hrest)
    | symbol s =>
      by_cases hbracket : s = .openBracket
      · subst hbracket
        exact (agree_arguments _ _ hnested hrest).bind fun entries _ _ hrest => .ok _ hrest
      · by_cases hparen : s = .openParen
        · subst hparen
          refine (hnested hrest).bind fun inner _ _ hrest => ?_
          exact (agree_expect _ _ hrest).bind fun _ _ _ hrest => .ok _ hrest
        · cases s <;> first | exact .error _ _ | contradiction

theorem agree_unary (hx : x.limit = x'.limit) (hnested : Agree nested nested') :
    Agree (unary x nested) (unary x' nested') := by
  intro input input' h
  have hprefixes := prefixes_of_moved h
  rw [unary, unary, hx]
  generalize prefixes input = taken at hprefixes ⊢
  generalize prefixes input' = taken' at hprefixes ⊢
  obtain ⟨ops, rest⟩ := taken
  obtain ⟨ops', rest'⟩ := taken'
  obtain ⟨rfl, hrest⟩ : ops = ops' ∧ Moved rest rest' := hprefixes
  dsimp only
  by_cases hlimit : x'.limit < ops.length
  · simp only [if_pos hlimit]
    exact .error _ _
  · simp only [if_neg hlimit]
    refine (agree_atom hnested hrest).bind fun object _ _ hrest => ?_
    exact (agree_accesses object hrest).bind fun operand _ _ hrest => .ok _ hrest

theorem agree_powers {base base' right right' : Parser Expr} (hbase : Agree base base')
    (hright : Agree right right') : Agree (powers base right) (powers base' right') := by
  intro input input' h
  refine (hbase h).bind fun lhs _ _ hrest => ?_
  cases hrest with
  | nil => exact .ok lhs .nil
  | @cons l l' _ _ hl hrest =>
    dsimp only
    rw [hl]
    by_cases hcaret : l'.lexeme = .symbol .caret
    · simp only [if_pos hcaret]
      exact (hright hrest).bind fun rhs _ _ hrest => .ok _ hrest
    · simp only [if_neg hcaret]
      exact .ok lhs (.cons hl hrest)

/-! ## Levels of operators -/

theorem agree_chain (operator? : Lexeme → Option BinaryOp) {operand operand' : Parser Expr}
    (h : Agree operand operand') (fuel : Nat) (lhs : Expr) :
    Agree (chain operator? operand fuel lhs) (chain operator? operand' fuel lhs) := by
  induction fuel generalizing lhs with
  | zero => exact fun _ _ hinput => .ok lhs hinput
  | succ fuel ih =>
    intro input input' hinput
    cases hinput with
    | nil => exact .ok lhs .nil
    | @cons l l' _ _ hl hrest =>
      rw [chain, chain, hl]
      cases operator? l'.lexeme with
      | some op => exact (h hrest).bind fun rhs _ _ hrest => ih _ hrest
      | none => exact .ok lhs (.cons hl hrest)

theorem agree_leftward (operator? : Lexeme → Option BinaryOp) {operand operand' : Parser Expr}
    (h : Agree operand operand') :
    Agree (leftward operator? operand) (leftward operator? operand') := by
  intro input input' hinput
  refine (h hinput).bind fun lhs rest rest' hrest => ?_
  dsimp only
  rw [hrest.length_eq]
  exact agree_chain operator? h _ lhs hrest

theorem agree_logical {exponent exponent' : Parser Expr} (h : Agree exponent exponent') :
    Agree (logical exponent) (logical exponent') :=
  agree_leftward _ (agree_leftward _ (agree_leftward _ h))

theorem agree_head {operand operand' : Parser Expr} (h : Agree operand operand') :
    Agree (head operand) (head operand') := by
  intro input input' hinput
  refine (h hinput).bind fun lhs _ _ hrest => ?_
  cases hrest with
  | nil => exact .ok _ .nil
  | @cons l l' _ _ hl hrest =>
    dsimp only
    rw [hl]
    cases comparison? l'.lexeme with
    | some test => exact (h hrest).bind fun rhs _ _ hrest => .ok _ hrest
    | none => exact .ok _ (.cons hl hrest)

theorem agree_conditional {exponent exponent' : Parser Expr} (hexponent : Agree exponent exponent')
    (hnested : Agree nested nested') :
    Agree (conditional x exponent nested) (conditional x' exponent' nested') := by
  intro input input' h
  refine (agree_head (agree_logical hexponent) h).bind fun start rest rest' hrest => ?_
  have hnext := nextIs_of_moved hrest .question
  cases start with
  | compared test lhs rhs =>
    dsimp only
    rw [hnext]
    cases nextIs .question rest' with
    | true =>
      refine (hnested hrest.tail).bind fun ifTrue _ _ hrest => ?_
      refine (agree_expect .colon .ternary hrest).bind fun _ _ _ hrest => ?_
      exact (hnested hrest).bind fun ifFalse _ _ hrest => .ok _ hrest
    | false => exact .ok _ hrest
  | plain e =>
    dsimp only
    rw [hnext]
    cases nextIs .question rest' with
    | true => exact .error _ _
    | false => exact .ok e hrest

/-- With the same room for nesting, the same is parsed. -/
theorem agree_expression (hx : x.limit = x'.limit) (room : Nat) :
    Agree (expression x room) (expression x' room) ∧
      Agree (exponent x room) (exponent x' room) := by
  induction room with
  | zero =>
    have hdeep : Agree (expression x 0) (expression x' 0) := fun _ _ _ => by
      rw [expression, expression]
      exact .error _ _
    refine ⟨hdeep, ?_⟩
    rw [exponent_eq, exponent_eq]
    exact agree_powers (agree_unary hx hdeep) agree_tooDeep
  | succ room ih =>
    have hnested : Agree (expression x (room + 1)) (expression x' (room + 1)) := by
      rw [expression_succ, expression_succ]
      exact agree_conditional ih.2 ih.1
    refine ⟨hnested, ?_⟩
    rw [exponent_eq, exponent_eq]
    exact agree_powers (agree_unary hx hnested) ih.2

end Parser

/-! ## Sources -/

namespace Lexeme

theorem exists_scanWithin {bound start : Nat} {cs : List Char} {input : List Located}
    (h : scanWithin bound start cs = .ok input) (start' : Nat) :
    ∃ input', scanWithin bound start' cs = .ok input' ∧ Moved input input' := by
  induction bound generalizing start start' cs input with
  | zero =>
    cases h
    exact ⟨[], rfl, .nil⟩
  | succ bound ih =>
    cases cs with
    | nil =>
      cases h
      exact ⟨[], rfl, .nil⟩
    | cons c rest =>
      rw [scanWithin] at h ⊢
      split at h
      · next hc =>
        rw [if_pos hc]
        exact ih h _
      · next hc =>
        rw [if_neg hc]
        cases hnext : next? (c :: rest) with
        | none =>
          rw [hnext] at h
          cases h
        | some found =>
          obtain ⟨l, rest⟩ := found
          rw [hnext] at h
          dsimp only at h ⊢
          cases hmore : scanWithin bound (start + l.text.length) rest with
          | error e =>
            rw [hmore] at h
            cases h
          | ok more =>
            rw [hmore] at h
            cases h
            obtain ⟨more', hmore', hmoved⟩ := ih hmore (start' + l.text.length)
            exact ⟨⟨l, ⟨start', start' + l.text.length⟩⟩ :: more', by rw [hmore'], .cons rfl hmoved⟩

/-- Wherever the characters stand, they are the same lexemes. -/
theorem exists_scanFrom {start : Nat} {cs : List Char} {input : List Located}
    (h : scanFrom start cs = .ok input) (start' : Nat) :
    ∃ input', scanFrom start' cs = .ok input' ∧ Moved input input' := by
  rw [scanFrom_eq_scanWithin (Nat.le_refl _)] at h ⊢
  exact exists_scanWithin h start'

theorem scanFrom_blank {c : Char} (hc : isBlank c = true) (start : Nat) (cs : List Char) :
    scanFrom start (c :: cs) = scanFrom (start + 1) cs := by
  rw [scanFrom, if_pos hc]

theorem scanFrom_of_next? {c : Char} {cs rest : List Char} {l : Lexeme} {start : Nat}
    {more : List Located} (hc : isBlank c = false) (hnext : next? (c :: cs) = some (l, rest))
    (hmore : scanFrom (start + l.text.length) rest = .ok more) :
    scanFrom start (c :: cs) = .ok (⟨l, ⟨start, start + l.text.length⟩⟩ :: more) := by
  rw [scanFrom, if_neg (by simp [hc])]
  split
  · next l' rest' hnext' =>
    obtain ⟨rfl, rfl⟩ := Prod.mk.inj (Option.some.inj (hnext.symm.trans hnext'))
    dsimp only
    rw [hmore]
  · next hnone =>
    rw [hnext] at hnone
    cases hnone

theorem startsNumber_of_isAlpha {c : Char} (hc : c.isAlpha = true) (cs : List Char) :
    startsNumber (c :: cs) = false := by
  unfold startsNumber
  split
  · next heq =>
    cases heq
    exact absurd hc (by decide)
  · rw [startsWithDigit, Number.isDigit_eq_false_of_isAlpha hc]

theorem isBlank_of_isAlpha {c : Char} (hc : c.isAlpha = true) : isBlank c = false := by
  by_contra h
  simp only [isBlank, Bool.not_eq_false, Bool.or_eq_true, decide_eq_true_eq] at h
  rcases h with (((rfl | rfl) | rfl) | rfl) | rfl <;> exact absurd hc (by decide)

/-- A word ends at a blank. -/
theorem next?_word {c : Char} {cs : List Char} (hc : c.isAlpha = true)
    (hcs : ∀ d ∈ cs, isWordRest d = true) (rest : List Char) :
    next? (c :: (cs ++ ' ' :: rest)) = some (.word (String.ofList (c :: cs)), ' ' :: rest) := by
  have hblank : isWordRest ' ' = false := by decide
  rw [next?, if_neg (by simp [startsNumber_of_isAlpha hc])]
  simp only [hc, if_true, List.takeWhile_append_of_pos hcs, List.dropWhile_append_of_pos hcs,
    List.takeWhile_cons, List.dropWhile_cons, hblank, List.append_nil, Bool.false_eq_true, if_false]

/-- A name and an equals sign in front of a source. -/
theorem exists_scan_assignment {name source : String} (hname : IsWord name) {input : List Located}
    (h : scan source = .ok input) :
    ∃ first second input', scan (name ++ " = " ++ source) = .ok (first :: second :: input') ∧
      first.lexeme = .word name ∧ second.lexeme = .symbol .assign ∧ Moved input input' := by
  obtain ⟨c, cs, hcs, hc, hrest⟩ := hname
  have htext : (name ++ " = " ++ source).toList =
      c :: (cs ++ ' ' :: '=' :: ' ' :: source.toList) := by
    simp [hcs]
  have hword : String.ofList (c :: cs) = name := by rw [← hcs, String.ofList_toList]
  have hassign : next? ('=' :: ' ' :: source.toList) =
      some (.symbol .assign, ' ' :: source.toList) := by
    rfl
  -- the places where the name and the sign end
  let stop := 0 + (word name).text.length
  let stop' := stop + 1 + (symbol .assign).text.length
  obtain ⟨input', hinput', hmoved⟩ := exists_scanFrom h (stop' + 1)
  rw [← scanFrom_blank (c := ' ') rfl] at hinput'
  have hsign := scanFrom_of_next? (c := '=') rfl hassign hinput'
  rw [← scanFrom_blank (c := ' ') rfl] at hsign
  have hname := scanFrom_of_next? (isBlank_of_isAlpha hc) (hword ▸ next?_word hc hrest _) hsign
  exact ⟨_, _, input', by rw [scan, htext, hname], rfl, rfl, hmoved⟩

end Lexeme

namespace Statement

/-- An expression is all that a source without a destination has. -/
theorem expression_of_ofLexemes {x : Extent} {input : List Located} {e : Expr}
    (h : ofLexemes x input = .ok ⟨none, e⟩) : Parser.expression x x.limit input = .ok (e, []) := by
  rcases destination?_cases input with ⟨name, inner, hdest, -⟩ | ⟨hdest, -⟩
  · rw [ofLexemes, hdest] at h
    obtain ⟨⟨e', rest⟩, -, h⟩ := Parser.bind_eq_ok.1 h
    cases rest <;> cases h
  · rw [ofLexemes, hdest] at h
    obtain ⟨⟨e', rest⟩, he, h⟩ := Parser.bind_eq_ok.1 h
    cases rest <;> cases h
    exact he

/-- With a name and an equals sign in front of it, an expression drives the output of this
    name. -/
theorem parse_assignment {limit : Nat} {name source : String} {e : Expr}
    (hname : Lexeme.IsWord name) (h : parse limit source = .ok ⟨none, e⟩) :
    parse limit (name ++ " = " ++ source) = .ok ⟨some name, e⟩ := by
  cases hscan : Lexeme.scan source with
  | error fault =>
    rw [parse, hscan] at h
    cases h
  | ok input =>
    obtain ⟨first, second, input', hscan', hfirst, hsecond, hmoved⟩ :=
      Lexeme.exists_scan_assignment hname hscan
    rw [parse_eq hscan] at h
    rw [parse_eq hscan', ofLexemes]
    have hdest : destination? (first :: second :: input') = (some name, input') := by
      rw [destination?, hfirst, hsecond]
    have hlimit : (Extent.mk limit source.utf8ByteSize).limit =
        (Extent.mk limit (name ++ " = " ++ source).utf8ByteSize).limit := rfl
    have hsame := (Parser.agree_expression hlimit limit).1 hmoved
    rw [expression_of_ofLexemes h] at hsame
    generalize hparsed : Parser.expression _ limit input' = parsed at hsame
    cases hsame with
    | ok _ hrest =>
      cases hrest
      simp only [hdest, hparsed, bind, Except.bind]

end Statement

end RigExpr
