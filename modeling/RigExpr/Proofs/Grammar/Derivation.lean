import RigExpr.Expr.Basic
import RigExpr.Lexeme.Basic

/-!
# Derivations

The grammar of sources as a type: a nonterminal is an index, a production a
constructor, and a derivation a tree.

```text
source         := WORD '=' expression | expression
expression     := comparison ( '?' expression ':' expression )?
comparison     := logical ( ('==' | '!=' | '>' | '>=' | '<' | '<=') logical )?
logical        := additive ( ('|' | '&') additive )*
additive       := multiplicative ( ('+' | '-') multiplicative )*
multiplicative := exponent ( ('*' | '/' | '%') exponent )*
exponent       := unary ( '^' exponent )?
unary          := ('-' | '!')* atom ( '.' WORD )*
atom           := NUMBER | WORD | WORD '(' arguments ')' | '[' arguments ']'
                | '(' expression ')'
arguments      := ( expression ( ',' expression )* )?
```

where the comparison before a `?` has to take its operator.

A derivation has the lexemes it derives (`Derivation.lexemes`) and a
linearisation in post-order (`Derivation.postorder`). The grammar is unambiguous
(`Derivation.determined`): what a lexeme can go on with is fixed by its rank, and a
derivation that is followed by nothing it could go on with is determined by its
lexemes.
-/

namespace RigExpr

/-- The symbol of a binary operator. -/
def BinaryOp.sign : BinaryOp → Symbol
  | add => .plus
  | subtract => .minus
  | multiply => .star
  | divide => .slash
  | power => .caret
  | modulo => .percent
  | or => .pipe
  | and => .ampersand

/-- The symbol of a comparison. -/
def Comparison.sign : Comparison → Symbol
  | equal => .equal
  | notEqual => .notEqual
  | greater => .greater
  | greaterEqual => .greaterEqual
  | less => .less
  | lessEqual => .lessEqual

/-- The symbol of an operator in front of its operand. -/
def UnaryOp.sign : UnaryOp → Symbol
  | negate => .minus
  | not => .bang

theorem BinaryOp.sign_injective {a b : BinaryOp} (h : a.sign = b.sign) : a = b := by
  cases a <;> cases b <;> first | rfl | exact absurd h (by decide)

theorem Comparison.sign_injective {a b : Comparison} (h : a.sign = b.sign) : a = b := by
  cases a <;> cases b <;> first | rfl | exact absurd h (by decide)

theorem UnaryOp.sign_injective {a b : UnaryOp} (h : a.sign = b.sign) : a = b := by
  cases a <;> cases b <;> first | rfl | exact absurd h (by decide)

/-- The token of a word that no parenthesis follows: of a keyword, or of a name. -/
def Token.ofWord (text : String) : Token :=
  match Constant.ofKeyword? text, RotateOrder.ofKeyword? text with
  | some c, _ => .constant c
  | none, some o => .rotateOrder o
  | none, none => .identifier text

namespace Grammar

/-- The levels of operators that group to the left. -/
inductive Tier
  | logical | additive | multiplicative
  deriving Repr, DecidableEq

/-- The level of an operator that groups to the left. -/
def tier? : BinaryOp → Option Tier
  | .or | .and => some .logical
  | .add | .subtract => some .additive
  | .multiply | .divide | .modulo => some .multiplicative
  | .power => none

/-- The nonterminals. -/
inductive Nonterminal
  | expression
  | comparison
  /-- Operands with operators of a level between them. -/
  | chain (t : Tier)
  /-- The operators of a chain, each with the operand after it. -/
  | links (t : Tier)
  | exponent
  | unary
  | atom
  | arguments
  /-- The arguments after the first, each with the comma before it. -/
  | further
  deriving Repr, DecidableEq

/-- The operands of a chain. -/
def Tier.operand : Tier → Nonterminal
  | logical => .chain .additive
  | additive => .chain .multiplicative
  | multiplicative => .exponent

/-- A derivation from a nonterminal. -/
inductive Derivation : Nonterminal → Type
  | plain (c : Derivation .comparison) : Derivation .expression
  /-- A comparison that takes its operator, and the branches it chooses between. -/
  | ternary (lhs : Derivation (.chain .logical)) (test : Comparison)
      (rhs : Derivation (.chain .logical)) (ifTrue ifFalse : Derivation .expression) :
      Derivation .expression
  | bare (operand : Derivation (.chain .logical)) : Derivation .comparison
  | compared (lhs : Derivation (.chain .logical)) (test : Comparison)
      (rhs : Derivation (.chain .logical)) : Derivation .comparison
  | chain {t : Tier} (first : Derivation t.operand) (rest : Derivation (.links t)) :
      Derivation (.chain t)
  | noLink {t : Tier} : Derivation (.links t)
  | link {t : Tier} (op : BinaryOp) (h : tier? op = some t) (operand : Derivation t.operand)
      (rest : Derivation (.links t)) : Derivation (.links t)
  | base (operand : Derivation .unary) : Derivation .exponent
  | power (operand : Derivation .unary) (exponent : Derivation .exponent) : Derivation .exponent
  | unary (ops : List UnaryOp) (object : Derivation .atom) (names : List String) :
      Derivation .unary
  | number (text : String) : Derivation .atom
  | word (text : String) : Derivation .atom
  | call (name : String) (args : Derivation .arguments) : Derivation .atom
  | list (args : Derivation .arguments) : Derivation .atom
  | group (inner : Derivation .expression) : Derivation .atom
  | noArgument : Derivation .arguments
  | argument (first : Derivation .expression) (rest : Derivation .further) : Derivation .arguments
  | noFurther : Derivation .further
  | further (next : Derivation .expression) (rest : Derivation .further) : Derivation .further

namespace Derivation

/-- The lexemes of component accesses. -/
def accesses (names : List String) : List Lexeme :=
  names.flatMap fun name => [.symbol .dot, .word name]

/-- The lexemes of operators in front of an operand. -/
def signs (ops : List UnaryOp) : List Lexeme := ops.map fun op => .symbol op.sign

/-- The lexemes that a derivation derives. -/
@[simp] def lexemes : {n : Nonterminal} → Derivation n → List Lexeme
  | _, plain c => c.lexemes
  | _, ternary lhs test rhs ifTrue ifFalse =>
    lhs.lexemes ++ .symbol test.sign :: (rhs.lexemes ++ .symbol .question ::
      (ifTrue.lexemes ++ .symbol .colon :: ifFalse.lexemes))
  | _, bare operand => operand.lexemes
  | _, compared lhs test rhs => lhs.lexemes ++ .symbol test.sign :: rhs.lexemes
  | _, chain first rest => first.lexemes ++ rest.lexemes
  | _, noLink => []
  | _, link op _ operand rest => .symbol op.sign :: (operand.lexemes ++ rest.lexemes)
  | _, base operand => operand.lexemes
  | _, power operand exponent => operand.lexemes ++ .symbol .caret :: exponent.lexemes
  | _, unary ops object names => signs ops ++ (object.lexemes ++ accesses names)
  | _, number text => [.number text]
  | _, word text => [.word text]
  | _, call name args => .word name :: .symbol .openParen :: (args.lexemes ++ [.symbol .closeParen])
  | _, list args => .symbol .openBracket :: (args.lexemes ++ [.symbol .closeBracket])
  | _, group inner => .symbol .openParen :: (inner.lexemes ++ [.symbol .closeParen])
  | _, noArgument => []
  | _, argument first rest => first.lexemes ++ rest.lexemes
  | _, noFurther => []
  | _, further next rest => .symbol .comma :: (next.lexemes ++ rest.lexemes)

/-- The number of expressions in a list of arguments. -/
def count : {n : Nonterminal} → Derivation n → Nat
  | _, argument _ rest => rest.count + 1
  | _, further _ rest => rest.count + 1
  | _, _ => 0

/-- A derivation in post-order: operands before their operator, chains grouped to
    the left and powers to the right. The operators in front of an operand come
    after it and its component accesses, the nearest first. A comparison that
    chooses between nothing else chooses between the truth values. -/
def postorder : {n : Nonterminal} → Derivation n → List Token
  | _, plain (bare operand) => operand.postorder
  | _, plain (compared lhs test rhs) =>
    lhs.postorder ++ rhs.postorder ++
      [.comparison test, .constant .true, .constant .false, .ternary]
  | _, ternary lhs test rhs ifTrue ifFalse =>
    lhs.postorder ++ rhs.postorder ++ [.comparison test] ++ ifTrue.postorder ++
      ifFalse.postorder ++ [.ternary]
  | _, bare operand => operand.postorder
  | _, compared lhs test rhs => lhs.postorder ++ rhs.postorder ++ [.comparison test]
  | _, chain first rest => first.postorder ++ rest.postorder
  | _, noLink => []
  | _, link op _ operand rest => operand.postorder ++ [.binary op] ++ rest.postorder
  | _, base operand => operand.postorder
  | _, power operand exponent => operand.postorder ++ exponent.postorder ++ [.binary .power]
  | _, unary ops object names =>
    object.postorder ++ names.map (fun name => .component (.ofName name)) ++
      ops.reverse.map UnaryOp.token
  | _, number text => [.number text]
  | _, word text => [.ofWord text]
  | _, call name args => args.postorder ++ [.call name args.count]
  | _, list args => args.postorder ++ [.list args.count]
  | _, group inner => inner.postorder
  | _, noArgument => []
  | _, argument first rest => first.postorder ++ rest.postorder
  | _, noFurther => []
  | _, further next rest => next.postorder ++ rest.postorder

end Derivation

/-! ## What can follow -/

/-- How far out a lexeme can go on with what stands before it: a parenthesis with
    a word, a point with an operand, a `^` with an exponent, and so on outwards.
    The lexemes that only start an operand come after those, and last the ones
    that neither go on nor start. -/
def rank : Lexeme → Nat
  | .symbol .openParen => 0
  | .symbol .dot => 1
  | .symbol .caret => 2
  | .symbol .star | .symbol .slash | .symbol .percent => 3
  | .symbol .plus | .symbol .minus => 4
  | .symbol .pipe | .symbol .ampersand => 5
  | .symbol .equal | .symbol .notEqual | .symbol .greater | .symbol .greaterEqual
  | .symbol .less | .symbol .lessEqual => 6
  | .symbol .question => 7
  | .symbol .comma => 8
  | .number _ | .word _ | .symbol .bang | .symbol .openBracket => 9
  | .symbol .colon | .symbol .assign | .symbol .closeParen | .symbol .closeBracket => 10

/-- The rank of the lexemes of a level. -/
def Tier.rank : Tier → Nat
  | multiplicative => 3
  | additive => 4
  | logical => 5

/-- The greatest rank of a lexeme that can go on with a nonterminal, or start it
    where it may also be empty. -/
def Nonterminal.reach : Nonterminal → Nat
  | atom => 0
  | unary => 1
  | exponent => 2
  | chain t | links t => t.rank
  | comparison => 6
  | expression => 7
  | arguments | further => 9

/-- Whether a nonterminal derives operands, which are never empty. -/
def Nonterminal.isOperand : Nonterminal → Bool
  | links _ | arguments | further => false
  | _ => true

/-- The lexemes do not start with one that can go on with the nonterminal. -/
def Stops (n : Nonterminal) : List Lexeme → Prop
  | [] => True
  | l :: _ => n.reach < rank l

theorem Stops.mono {m n : Nonterminal} (h : m.reach ≤ n.reach) {ls : List Lexeme}
    (hs : Stops n ls) : Stops m ls := by
  cases ls with
  | nil => trivial
  | cons l ls => exact Nat.lt_of_le_of_lt h hs

theorem stops_symbol {n : Nonterminal} {s : Symbol} {ls : List Lexeme}
    (h : n.reach < rank (.symbol s)) : Stops n (.symbol s :: ls) := h

theorem rank_sign_of_tier? {op : BinaryOp} {t : Tier} (h : tier? op = some t) :
    rank (.symbol op.sign) = t.rank := by
  cases op <;> cases h <;> rfl

theorem rank_sign (test : Comparison) : rank (.symbol test.sign) = 6 := by
  cases test <;> rfl

theorem stops_sign (test : Comparison) (ls : List Lexeme) :
    Stops (.chain .logical) (.symbol test.sign :: ls) := by
  refine stops_symbol ?_
  rw [rank_sign]
  decide

theorem reach_operand (t : Tier) : t.operand.reach < t.rank := by
  cases t <;> decide

namespace Derivation

theorem stops_links {t : Tier} (d : Derivation (.links t)) {rest : List Lexeme}
    (h : Stops (.links t) rest) : Stops t.operand (d.lexemes ++ rest) := by
  cases d with
  | noLink => exact h.mono (Nat.le_of_lt (reach_operand t))
  | link op ht operand links =>
    show t.operand.reach < rank (.symbol op.sign)
    rw [rank_sign_of_tier? ht]
    exact reach_operand t

/-- The lexemes of an atom start with none that can stand before an operand. -/
theorem exists_cons_of_atom (d : Derivation .atom) :
    ∃ l ls, d.lexemes = l :: ls ∧ rank l ≤ 9 ∧ ∀ op : UnaryOp, l ≠ .symbol op.sign := by
  cases d <;> refine ⟨_, _, rfl, by simp [rank], fun op => ?_⟩ <;> cases op <;> simp [UnaryOp.sign]

theorem isOperand_operand (t : Tier) : t.operand.isOperand = true := by
  cases t <;> rfl

/-- An operand starts with a lexeme, and with none that ends a list of arguments. -/
theorem exists_cons {n : Nonterminal} (d : Derivation n) (hn : n.isOperand = true) :
    ∃ l ls, d.lexemes = l :: ls ∧ rank l ≤ 9 := by
  induction d with
  | plain c ih => exact ih rfl
  | ternary lhs test rhs ifTrue ifFalse ih =>
    obtain ⟨l, ls, hl, hr⟩ := ih rfl
    exact ⟨l, _, by rw [lexemes, hl]; rfl, hr⟩
  | bare operand ih => exact ih rfl
  | compared lhs test rhs ih =>
    obtain ⟨l, ls, hl, hr⟩ := ih rfl
    exact ⟨l, _, by rw [lexemes, hl]; rfl, hr⟩
  | chain first rest ih =>
    obtain ⟨l, ls, hl, hr⟩ := ih (isOperand_operand _)
    exact ⟨l, _, by rw [lexemes, hl]; rfl, hr⟩
  | base operand ih => exact ih rfl
  | power operand exponent ih =>
    obtain ⟨l, ls, hl, hr⟩ := ih rfl
    exact ⟨l, _, by rw [lexemes, hl]; rfl, hr⟩
  | unary ops object names =>
    cases ops with
    | nil =>
      obtain ⟨l, ls, hl, hr, -⟩ := exists_cons_of_atom object
      exact ⟨l, _, by rw [lexemes, hl]; rfl, hr⟩
    | cons op ops => exact ⟨_, _, rfl, by cases op <;> simp [rank, UnaryOp.sign]⟩
  | number | word | call | list | group => exact ⟨_, _, rfl, by simp [rank]⟩
  | noLink | link | noArgument | argument | noFurther | further =>
    exact absurd hn Bool.false_ne_true

/-- Operators in front of an operand end where the operand starts. -/
theorem signs_inj {ops ops' : List UnaryOp} {ls ls' : List Lexeme}
    (h : signs ops ++ ls = signs ops' ++ ls')
    (hs : ∀ l ∈ ls.head?, ∀ op : UnaryOp, l ≠ .symbol op.sign)
    (hs' : ∀ l ∈ ls'.head?, ∀ op : UnaryOp, l ≠ .symbol op.sign) : ops = ops' ∧ ls = ls' := by
  induction ops generalizing ops' with
  | nil =>
    cases ops' with
    | nil => exact ⟨rfl, h⟩
    | cons op ops' =>
      have h : ls = .symbol op.sign :: (signs ops' ++ ls') := h
      exact absurd rfl (hs _ (by rw [h]; rfl) op)
  | cons op ops ih =>
    cases ops' with
    | nil =>
      have h : .symbol op.sign :: (signs ops ++ ls) = ls' := h
      exact absurd rfl (hs' _ (by rw [← h]; rfl) op)
    | cons op' ops' =>
      have h : .symbol op.sign :: (signs ops ++ ls) = .symbol op'.sign :: (signs ops' ++ ls') := h
      rw [List.cons.injEq, Lexeme.symbol.injEq] at h
      obtain ⟨rfl, rfl⟩ := ih h.2
      exact ⟨by rw [UnaryOp.sign_injective h.1], rfl⟩

/-- Component accesses end where no point follows. -/
theorem accesses_inj {names names' : List String} {ls ls' : List Lexeme}
    (h : accesses names ++ ls = accesses names' ++ ls') (hs : Stops .unary ls)
    (hs' : Stops .unary ls') : names = names' ∧ ls = ls' := by
  induction names generalizing names' with
  | nil =>
    cases names' with
    | nil => exact ⟨rfl, h⟩
    | cons name' names' =>
      have h : ls = .symbol .dot :: .word name' :: (accesses names' ++ ls') := h
      rw [h] at hs
      exact absurd hs (Nat.lt_irrefl 1)
  | cons name names ih =>
    cases names' with
    | nil =>
      have h : .symbol .dot :: .word name :: (accesses names ++ ls) = ls' := h
      rw [← h] at hs'
      exact absurd hs' (Nat.lt_irrefl 1)
    | cons name' names' =>
      have h : .symbol .dot :: .word name :: (accesses names ++ ls) =
        .symbol .dot :: .word name' :: (accesses names' ++ ls') := h
      rw [List.cons.injEq, List.cons.injEq, Lexeme.word.injEq] at h
      obtain ⟨-, rfl, htail⟩ := h
      obtain ⟨rfl, rfl⟩ := ih htail
      exact ⟨rfl, rfl⟩

theorem stops_accesses {names : List String} {rest : List Lexeme} (h : Stops .unary rest) :
    Stops .atom (accesses names ++ rest) := by
  cases names with
  | nil => exact h.mono (by decide)
  | cons name names => exact Nat.zero_lt_one

theorem head_of_atom (object : Derivation .atom) (ls : List Lexeme) :
    ∀ l ∈ (object.lexemes ++ ls).head?, ∀ op : UnaryOp, l ≠ .symbol op.sign := by
  obtain ⟨l, ls', hl, -, hne⟩ := exists_cons_of_atom object
  rw [hl]
  rintro _ ⟨⟩
  exact hne

theorem not_stops_sign {t : Tier} {op : BinaryOp} (ht : tier? op = some t) {ls : List Lexeme} :
    ¬Stops (.links t) (.symbol op.sign :: ls) := by
  show ¬t.rank < rank (.symbol op.sign)
  rw [rank_sign_of_tier? ht]
  exact Nat.lt_irrefl _

theorem stops_further (d : Derivation .further) {rest : List Lexeme} (h : Stops .further rest) :
    Stops .expression (d.lexemes ++ rest) := by
  cases d with
  | noFurther => exact h.mono (by decide)
  | further next more => exact stops_symbol (by decide)

/-- A derivation is determined by its lexemes, if these are followed by nothing
    that it could go on with. -/
def Determined {n : Nonterminal} (d : Derivation n) : Prop :=
  ∀ (d' : Derivation n) {rest rest' : List Lexeme}, d.lexemes ++ rest = d'.lexemes ++ rest' →
    Stops n rest → Stops n rest' → d = d' ∧ rest = rest'

theorem determined_plain {c : Derivation .comparison} (ih : Determined c) :
    Determined (plain c) := by
  intro d' rest rest' h hs hs'
  cases d' with
  | plain c' =>
    obtain ⟨rfl, rfl⟩ := ih _ h (hs.mono (by decide)) (hs'.mono (by decide))
    exact ⟨rfl, rfl⟩
  | ternary lhs test rhs ifTrue ifFalse =>
    -- What follows `c` would start with the question mark.
    have hc : c.lexemes ++ rest = (compared lhs test rhs).lexemes ++ (.symbol .question ::
        (ifTrue.lexemes ++ .symbol .colon :: (ifFalse.lexemes ++ rest'))) := by
      simpa [lexemes] using h
    obtain ⟨-, rfl⟩ := ih _ hc (hs.mono (by decide)) (stops_symbol (by decide))
    exact absurd hs (Nat.lt_irrefl 7)

theorem determined_ternary {lhs rhs : Derivation (.chain .logical)} {test : Comparison}
    {ifTrue ifFalse : Derivation .expression} (ihl : Determined lhs) (ihr : Determined rhs)
    (iht : Determined ifTrue) (ihf : Determined ifFalse) :
    Determined (ternary lhs test rhs ifTrue ifFalse) := by
  intro d' rest rest' h hs hs'
  simp only [lexemes, List.append_assoc, List.cons_append] at h
  cases d' with
  | plain c =>
    cases c with
    | bare operand =>
      obtain ⟨-, rfl⟩ := ihl _ h (stops_sign test _) (hs'.mono (by decide))
      exact absurd hs' (by show ¬7 < rank (.symbol test.sign); rw [rank_sign]; decide)
    | compared lhs' test' rhs' =>
      simp only [lexemes, List.append_assoc, List.cons_append] at h
      obtain ⟨rfl, h₁⟩ := ihl _ h (stops_sign test _) (stops_sign test' _)
      rw [List.cons.injEq] at h₁
      obtain ⟨-, rfl⟩ := ihr _ h₁.2 (stops_symbol (by decide)) (hs'.mono (by decide))
      exact absurd hs' (Nat.lt_irrefl 7)
  | ternary lhs' test' rhs' ifTrue' ifFalse' =>
    simp only [lexemes, List.append_assoc, List.cons_append] at h
    obtain ⟨rfl, h₁⟩ := ihl _ h (stops_sign test _) (stops_sign test' _)
    rw [List.cons.injEq, Lexeme.symbol.injEq] at h₁
    obtain rfl := Comparison.sign_injective h₁.1
    obtain ⟨rfl, h₂⟩ := ihr _ h₁.2 (stops_symbol (by decide)) (stops_symbol (by decide))
    rw [List.cons.injEq] at h₂
    obtain ⟨rfl, h₃⟩ := iht _ h₂.2 (stops_symbol (by decide)) (stops_symbol (by decide))
    rw [List.cons.injEq] at h₃
    obtain ⟨rfl, rfl⟩ := ihf _ h₃.2 hs hs'
    exact ⟨rfl, rfl⟩

theorem determined_bare {operand : Derivation (.chain .logical)} (ih : Determined operand) :
    Determined (bare operand) := by
  intro d' rest rest' h hs hs'
  cases d' with
  | bare operand' =>
    obtain ⟨rfl, rfl⟩ := ih _ h (hs.mono (by decide)) (hs'.mono (by decide))
    exact ⟨rfl, rfl⟩
  | compared lhs test rhs =>
    simp only [lexemes, List.append_assoc, List.cons_append] at h
    obtain ⟨-, rfl⟩ := ih _ h (hs.mono (by decide)) (stops_sign test _)
    exact absurd hs (by show ¬6 < rank (.symbol test.sign); rw [rank_sign]; decide)

theorem determined_compared {lhs rhs : Derivation (.chain .logical)} {test : Comparison}
    (ihl : Determined lhs) (ihr : Determined rhs) :
    Determined (compared lhs test rhs) := by
  intro d' rest rest' h hs hs'
  simp only [lexemes, List.append_assoc, List.cons_append] at h
  cases d' with
  | bare operand =>
    obtain ⟨-, rfl⟩ := ihl _ h (stops_sign test _) (hs'.mono (by decide))
    exact absurd hs' (by show ¬6 < rank (.symbol test.sign); rw [rank_sign]; decide)
  | compared lhs' test' rhs' =>
    simp only [lexemes, List.append_assoc, List.cons_append] at h
    obtain ⟨rfl, h₁⟩ := ihl _ h (stops_sign test _) (stops_sign test' _)
    rw [List.cons.injEq, Lexeme.symbol.injEq] at h₁
    obtain rfl := Comparison.sign_injective h₁.1
    obtain ⟨rfl, rfl⟩ := ihr _ h₁.2 (hs.mono (by decide)) (hs'.mono (by decide))
    exact ⟨rfl, rfl⟩

theorem determined_chain {t : Tier} {first : Derivation t.operand} {links : Derivation (.links t)}
    (ihf : Determined first) (ihl : Determined links) :
    Determined (chain first links) := by
  intro d' rest rest' h hs hs'
  cases d' with
  | chain first' links' =>
    simp only [lexemes, List.append_assoc] at h
    obtain ⟨rfl, h₁⟩ := ihf _ h (stops_links links hs) (stops_links links' hs')
    obtain ⟨rfl, rfl⟩ := ihl _ h₁ hs hs'
    exact ⟨rfl, rfl⟩

theorem determined_noLink {t : Tier} : Determined (noLink : Derivation (.links t)) := by
  intro d' rest rest' h hs hs'
  cases d' with
  | noLink => exact ⟨rfl, h⟩
  | link op ht operand links =>
    have h : rest = .symbol op.sign :: (operand.lexemes ++ links.lexemes ++ rest') := h
    rw [h] at hs
    exact absurd hs (not_stops_sign ht)

theorem determined_link {t : Tier} {op : BinaryOp} {ht : tier? op = some t}
    {operand : Derivation t.operand} {links : Derivation (.links t)} (iho : Determined operand)
    (ihl : Determined links) :
    Determined (link op ht operand links) := by
  intro d' rest rest' h hs hs'
  cases d' with
  | noLink =>
    have h : .symbol op.sign :: (operand.lexemes ++ links.lexemes ++ rest) = rest' := h
    rw [← h] at hs'
    exact absurd hs' (not_stops_sign ht)
  | link op' ht' operand' links' =>
    simp only [lexemes, List.append_assoc, List.cons_append, List.cons.injEq,
      Lexeme.symbol.injEq] at h
    obtain rfl := BinaryOp.sign_injective h.1
    obtain ⟨rfl, h₁⟩ := iho _ h.2 (stops_links links hs) (stops_links links' hs')
    obtain ⟨rfl, rfl⟩ := ihl _ h₁ hs hs'
    exact ⟨rfl, rfl⟩

theorem determined_base {operand : Derivation .unary} (ih : Determined operand) :
    Determined (base operand) := by
  intro d' rest rest' h hs hs'
  cases d' with
  | base operand' =>
    obtain ⟨rfl, rfl⟩ := ih _ h (hs.mono (by decide)) (hs'.mono (by decide))
    exact ⟨rfl, rfl⟩
  | power operand' exponent =>
    simp only [lexemes, List.append_assoc, List.cons_append] at h
    obtain ⟨-, rfl⟩ := ih _ h (hs.mono (by decide)) (stops_symbol (by decide))
    exact absurd hs (Nat.lt_irrefl 2)

theorem determined_power {operand : Derivation .unary} {exponent : Derivation .exponent}
    (iho : Determined operand) (ihe : Determined exponent) :
    Determined (power operand exponent) := by
  intro d' rest rest' h hs hs'
  simp only [lexemes, List.append_assoc, List.cons_append] at h
  cases d' with
  | base operand' =>
    obtain ⟨-, rfl⟩ := iho _ h (stops_symbol (by decide)) (hs'.mono (by decide))
    exact absurd hs' (Nat.lt_irrefl 2)
  | power operand' exponent' =>
    simp only [lexemes, List.append_assoc, List.cons_append] at h
    obtain ⟨rfl, h₁⟩ := iho _ h (stops_symbol (by decide)) (stops_symbol (by decide))
    rw [List.cons.injEq] at h₁
    obtain ⟨rfl, rfl⟩ := ihe _ h₁.2 hs hs'
    exact ⟨rfl, rfl⟩

theorem determined_unary {ops : List UnaryOp} {object : Derivation .atom} {names : List String}
    (ih : Determined object) :
    Determined (unary ops object names) := by
  intro d' rest rest' h hs hs'
  cases d' with
  | unary ops' object' names' =>
    simp only [lexemes, List.append_assoc] at h
    obtain ⟨rfl, h₁⟩ := signs_inj h (head_of_atom object _) (head_of_atom object' _)
    obtain ⟨rfl, h₂⟩ := ih _ h₁ (stops_accesses hs) (stops_accesses hs')
    obtain ⟨rfl, rfl⟩ := accesses_inj h₂ hs hs'
    exact ⟨rfl, rfl⟩

theorem determined_number {text : String} : Determined (number text) := by
  intro d' rest rest' h hs hs'
  cases d' <;> simp_all [lexemes]

theorem determined_word {text : String} : Determined (word text) := by
  intro d' rest rest' h hs hs'
  cases d' with
  | word text' => simpa [lexemes] using h
  | call name args =>
    obtain ⟨-, rfl⟩ : text = name ∧ rest = _ := by simpa [lexemes] using h
    exact absurd hs (Nat.lt_irrefl 0)
  | number | list | group => simp [lexemes] at h

theorem determined_call {name : String} {args : Derivation .arguments} (ih : Determined args) :
    Determined (call name args) := by
  intro d' rest rest' h hs hs'
  cases d' with
  | word text =>
    obtain ⟨-, rfl⟩ : name = text ∧ _ = rest' := by simpa [lexemes] using h
    exact absurd hs' (Nat.lt_irrefl 0)
  | call name' args' =>
    simp only [lexemes, List.append_assoc, List.cons_append, List.nil_append, List.cons.injEq,
      Lexeme.word.injEq, true_and] at h
    obtain ⟨rfl, h₁⟩ := ih _ h.2 (stops_symbol (by decide)) (stops_symbol (by decide))
    rw [List.cons.injEq] at h₁
    exact ⟨by rw [h.1], h₁.2⟩
  | number | list | group => simp [lexemes] at h

theorem determined_list {args : Derivation .arguments} (ih : Determined args) :
    Determined (list args) := by
  intro d' rest rest' h hs hs'
  cases d' with
  | list args' =>
    simp only [lexemes, List.append_assoc, List.cons_append, List.nil_append, List.cons.injEq,
      true_and] at h
    obtain ⟨rfl, h₁⟩ := ih _ h (stops_symbol (by decide)) (stops_symbol (by decide))
    rw [List.cons.injEq] at h₁
    exact ⟨rfl, h₁.2⟩
  | number | word | call | group => simp [lexemes] at h

theorem determined_group {inner : Derivation .expression} (ih : Determined inner) :
    Determined (group inner) := by
  intro d' rest rest' h hs hs'
  cases d' with
  | group inner' =>
    simp only [lexemes, List.append_assoc, List.cons_append, List.nil_append, List.cons.injEq,
      true_and] at h
    obtain ⟨rfl, h₁⟩ := ih _ h (stops_symbol (by decide)) (stops_symbol (by decide))
    rw [List.cons.injEq] at h₁
    exact ⟨rfl, h₁.2⟩
  | number | word | call | list => simp [lexemes] at h

theorem determined_noArgument : Determined noArgument := by
  intro d' rest rest' h hs hs'
  cases d' with
  | noArgument => exact ⟨rfl, h⟩
  | argument first more =>
    -- The arguments would end with a lexeme that starts an expression.
    obtain ⟨l, ls, hl, hr⟩ := exists_cons first rfl
    have h : rest = l :: (ls ++ more.lexemes ++ rest') := by simpa [lexemes, hl] using h
    rw [h] at hs
    exact absurd hs (Nat.not_lt.2 hr)

theorem determined_argument {first : Derivation .expression} {more : Derivation .further}
    (ihf : Determined first) (ihm : Determined more) :
    Determined (argument first more) := by
  intro d' rest rest' h hs hs'
  cases d' with
  | noArgument =>
    obtain ⟨l, ls, hl, hr⟩ := exists_cons first rfl
    have h : l :: (ls ++ more.lexemes ++ rest) = rest' := by simpa [lexemes, hl] using h
    rw [← h] at hs'
    exact absurd hs' (Nat.not_lt.2 hr)
  | argument first' more' =>
    simp only [lexemes, List.append_assoc] at h
    obtain ⟨rfl, h₁⟩ := ihf _ h (stops_further more hs) (stops_further more' hs')
    obtain ⟨rfl, rfl⟩ := ihm _ h₁ hs hs'
    exact ⟨rfl, rfl⟩

theorem determined_noFurther : Determined noFurther := by
  intro d' rest rest' h hs hs'
  cases d' with
  | noFurther => exact ⟨rfl, h⟩
  | further next more =>
    have h : rest = .symbol .comma :: (next.lexemes ++ more.lexemes ++ rest') := h
    rw [h] at hs
    exact absurd hs (show ¬9 < 8 by decide)

theorem determined_further {next : Derivation .expression} {more : Derivation .further}
    (ihn : Determined next) (ihm : Determined more) :
    Determined (further next more) := by
  intro d' rest rest' h hs hs'
  cases d' with
  | noFurther =>
    have h : .symbol .comma :: (next.lexemes ++ more.lexemes ++ rest) = rest' := h
    rw [← h] at hs'
    exact absurd hs' (show ¬9 < 8 by decide)
  | further next' more' =>
    simp only [lexemes, List.append_assoc, List.cons_append, List.cons.injEq, true_and] at h
    obtain ⟨rfl, h₁⟩ := ihn _ h (stops_further more hs) (stops_further more' hs')
    obtain ⟨rfl, rfl⟩ := ihm _ h₁ hs hs'
    exact ⟨rfl, rfl⟩

/-- The grammar is unambiguous: derivations with the same lexemes, followed by
    nothing that they could go on with, are the same. -/
theorem determined {n : Nonterminal} (d : Derivation n) : Determined d := by
  induction d with
  | plain _ ih => exact determined_plain ih
  | ternary _ _ _ _ _ ihl ihr iht ihf => exact determined_ternary ihl ihr iht ihf
  | bare _ ih => exact determined_bare ih
  | compared _ _ _ ihl ihr => exact determined_compared ihl ihr
  | chain _ _ ihf ihl => exact determined_chain ihf ihl
  | noLink => exact determined_noLink
  | link _ _ _ _ iho ihl => exact determined_link iho ihl
  | base _ ih => exact determined_base ih
  | power _ _ iho ihe => exact determined_power iho ihe
  | unary _ _ _ ih => exact determined_unary ih
  | number _ => exact determined_number
  | word _ => exact determined_word
  | call _ _ ih => exact determined_call ih
  | list _ ih => exact determined_list ih
  | group _ ih => exact determined_group ih
  | noArgument => exact determined_noArgument
  | argument _ _ ihf ihm => exact determined_argument ihf ihm
  | noFurther => exact determined_noFurther
  | further _ _ ihn ihm => exact determined_further ihn ihm

end Derivation

end Grammar

end RigExpr
