import RigExpr.Proofs.Grammar.Sources

/-!
# The nesting limit is a threshold

Parsers with two limits do the same until the lower limit is met: then the one with it ends,
and the other one goes on to an expression that does not fit, or to a failure of its own
(`Parser.Cut`). Each parser is cut in this way since the parsers that it is given are. So the
tree of an expression says which limits are enough for it: those beyond its greatest nesting
that also allow for its longest row of operators in front of an operand.

* `Parser.cut_expression`: expressions, with two limits and two rooms for nesting.
* `Statement.cut_parse`: sources.
* `Statement.parse_threshold`: the limits that are enough for a source.
-/

namespace RigExpr

namespace Expr

mutual

/-- The greatest number of expressions around another one in the tree: groups, calls and lists
    around their parts, choices around their branches and powers around their exponents. -/
def nesting : Expr → Nat
  | number _ | constant _ | order _ | identifier _ => 0
  | call _ args => nestingAll args
  | list items => nestingAll items
  | group inner => inner.nesting + 1
  | component object _ => object.nesting
  | unary _ operand => operand.nesting
  | binary .power lhs rhs => max lhs.nesting (rhs.nesting + 1)
  | binary _ lhs rhs | compare _ lhs rhs => max lhs.nesting rhs.nesting
  | ternary _ lhs rhs ifTrue ifFalse =>
    max (max lhs.nesting rhs.nesting) (max (ifTrue.nesting + 1) (ifFalse.nesting + 1))

/-- The nesting of a call or a list around its parts. -/
def nestingAll : List Expr → Nat
  | [] => 0
  | e :: rest => max (e.nesting + 1) (nestingAll rest)

end

/-- The number of operators in front of all else. -/
def leading : Expr → Nat
  | unary _ operand => operand.leading + 1
  | _ => 0

mutual

/-- The length of the longest row of operators in front of an operand in the tree. -/
def longestRow : Expr → Nat
  | number _ | constant _ | order _ | identifier _ => 0
  | call _ args => longestRowAll args
  | list items => longestRowAll items
  | group inner => inner.longestRow
  | component object _ => object.longestRow
  | unary _ operand => max (operand.leading + 1) operand.longestRow
  | binary _ lhs rhs | compare _ lhs rhs => max lhs.longestRow rhs.longestRow
  | ternary _ lhs rhs ifTrue ifFalse =>
    max (max lhs.longestRow rhs.longestRow) (max ifTrue.longestRow ifFalse.longestRow)

/-- The same in any of the trees. -/
def longestRowAll : List Expr → Nat
  | [] => 0
  | e :: rest => max e.longestRow (longestRowAll rest)

end

/-- The expression nests at most so deeply, with rows of at most `limit` operators. -/
def Fits (depth limit : Nat) (e : Expr) : Prop := e.nesting ≤ depth ∧ e.longestRow ≤ limit

/-- The same with one more expression around it. -/
def FitsInside (depth limit : Nat) (e : Expr) : Prop := e.nesting < depth ∧ e.longestRow ≤ limit

variable {depth limit : Nat} {e lhs rhs ifTrue ifFalse : Expr}

theorem fits_group : (group e).Fits depth limit ↔ e.FitsInside depth limit := by
  rw [Fits, nesting, longestRow, FitsInside, Nat.succ_le_iff]

theorem fits_component {which : Component} :
    (component e which).Fits depth limit ↔ e.Fits depth limit := by
  rw [Fits, nesting, longestRow, Fits]

theorem fits_binary {op : BinaryOp} (hop : op ≠ .power) :
    (binary op lhs rhs).Fits depth limit ↔ lhs.Fits depth limit ∧ rhs.Fits depth limit := by
  rw [Fits, nesting.eq_def, longestRow, Fits, Fits]
  cases op <;> first | contradiction | (dsimp only; omega)

theorem fits_power :
    (binary .power lhs rhs).Fits depth limit ↔
      lhs.Fits depth limit ∧ rhs.FitsInside depth limit := by
  rw [Fits, nesting, longestRow, Fits, FitsInside]
  omega

theorem fits_compare {test : Comparison} :
    (compare test lhs rhs).Fits depth limit ↔ lhs.Fits depth limit ∧ rhs.Fits depth limit := by
  rw [Fits, nesting, longestRow, Fits, Fits]
  omega

theorem fits_ternary {test : Comparison} :
    (ternary test lhs rhs ifTrue ifFalse).Fits depth limit ↔
      (lhs.Fits depth limit ∧ rhs.Fits depth limit) ∧
        ifTrue.FitsInside depth limit ∧ ifFalse.FitsInside depth limit := by
  simp only [Fits, FitsInside, nesting, longestRow, Nat.max_le, Nat.succ_le_iff]
  constructor
  · rintro ⟨⟨⟨hl, hr⟩, ht, hf⟩, ⟨hl', hr'⟩, ht', hf'⟩
    exact ⟨⟨⟨hl, hl'⟩, hr, hr'⟩, ⟨ht, ht'⟩, hf, hf'⟩
  · rintro ⟨⟨⟨hl, hl'⟩, hr, hr'⟩, ⟨ht, ht'⟩, hf, hf'⟩
    exact ⟨⟨⟨hl, hr⟩, ht, hf⟩, ⟨hl', hr'⟩, ht', hf'⟩

theorem nestingAll_le_iff {es : List Expr} :
    nestingAll es ≤ depth ∧ longestRowAll es ≤ limit ↔ ∀ e ∈ es, e.FitsInside depth limit := by
  induction es with
  | nil => simp [nestingAll, longestRowAll]
  | cons e es ih =>
    rw [List.forall_mem_cons, ← ih, nestingAll, longestRowAll, FitsInside]
    omega

theorem fits_call {name : String} {args : List Expr} :
    (call name args).Fits depth limit ↔ ∀ e ∈ args, e.FitsInside depth limit := by
  rw [Fits, nesting, longestRow, nestingAll_le_iff]

theorem fits_list {items : List Expr} :
    (list items).Fits depth limit ↔ ∀ e ∈ items, e.FitsInside depth limit := by
  rw [Fits, nesting, longestRow, nestingAll_le_iff]

theorem leading_foldr_unary (ops : List UnaryOp) (e : Expr) :
    (ops.foldr unary e).leading = ops.length + e.leading := by
  induction ops with
  | nil => simp
  | cons op ops ih => rw [List.foldr_cons, leading, ih, List.length_cons]; omega

/-- Operators in front of an operand without any are a row of their own. -/
theorem fits_foldr_unary (ops : List UnaryOp) (h : e.leading = 0) :
    (ops.foldr unary e).Fits depth limit ↔ ops.length ≤ limit ∧ e.Fits depth limit := by
  induction ops with
  | nil => simp
  | cons op ops ih =>
    have hrow : (unary op (ops.foldr unary e)).Fits depth limit ↔
        ops.length + 1 ≤ limit ∧ (ops.foldr unary e).Fits depth limit := by
      rw [Fits, Fits, nesting, longestRow, leading_foldr_unary, h]
      omega
    rw [List.foldr_cons, hrow, ih, List.length_cons]
    exact and_congr_right fun hle => and_iff_right (Nat.le_of_succ_le hle)

end Expr

namespace Parser

open Grammar

/-! ## Two limits -/

section Cut

variable {α β : Type} {limit : Nat} {fit : Prop} {fits : α → Prop} {fits' : β → Prop}
  {r r' : Except ParseError α}

/-- What comes out with a lower limit and with a higher one: the same, unless the lower one is
    met. Then what comes out with the higher one does not fit, or nothing does. -/
inductive Cut (limit : Nat) (fits : α → Prop) :
    Except ParseError α → Except ParseError α → Prop
  | ok {a : α} (h : fits a) : Cut limit fits (.ok a) (.ok a)
  | beyond {a : α} (h : ¬fits a) : Cut limit fits (.error (.tooDeep limit)) (.ok a)
  | malformed (e : SyntaxError) : Cut limit fits (.error (.malformed e)) (.error (.malformed e))
  | early (e : ParseError) : Cut limit fits (.error (.tooDeep limit)) (.error e)

/-- The same for what comes after something that may fit or not: if it does not, then the lower
    limit has been met before. -/
structure CutIf (limit : Nat) (fit : Prop) (fits : α → Prop) (r r' : Except ParseError α) :
    Prop where
  cut : fit → Cut limit fits r r'
  fit_of_ok : ∀ a, r' = .ok a → fits a → fit

theorem CutIf.ok {a : α} (h : fits a ↔ fit) : CutIf limit fit fits (.ok a) (.ok a) where
  cut hfit := .ok (h.2 hfit)
  fit_of_ok := by
    rintro _ ⟨⟩
    exact h.1

theorem CutIf.malformed (e : SyntaxError) :
    CutIf limit fit fits (.error (.malformed e)) (.error (.malformed e)) where
  cut _ := .malformed e
  fit_of_ok := by rintro _ ⟨⟩

/-- Where the lower limit is met, nothing must fit. -/
theorem Cut.tooDeep (h : ∀ a, r = .ok a → ¬fits a) :
    Cut limit fits (.error (.tooDeep limit)) r := by
  cases r with
  | error e => exact .early e
  | ok a => exact .beyond (h a rfl)

/-- One step after the other. -/
theorem Cut.bind (h : Cut limit fits r r') {f f' : α → Except ParseError β}
    (hf : ∀ a, r' = .ok a → CutIf limit (fits a) fits' (f a) (f' a)) :
    Cut limit fits' (r >>= f) (r' >>= f') := by
  cases h with
  | ok h => exact (hf _ rfl).cut h
  | beyond h => exact .tooDeep fun b hb hfits => h ((hf _ rfl).fit_of_ok b hb hfits)
  | malformed e => exact .malformed e
  | early e => exact .early e

theorem CutIf.bind (h : Cut limit fits r r') {f f' : α → Except ParseError β}
    (hf : ∀ a, r' = .ok a → CutIf limit (fit ∧ fits a) fits' (f a) (f' a)) :
    CutIf limit fit fits' (r >>= f) (r' >>= f') where
  cut hfit := h.bind fun a ha =>
    { cut := fun hfits => (hf a ha).cut ⟨hfit, hfits⟩
      fit_of_ok := fun b hb hfits => ((hf a ha).fit_of_ok b hb hfits).2 }
  fit_of_ok b hb hfits := by
    obtain ⟨a, ha, hb⟩ := bind_eq_ok.1 hb
    exact ((hf a ha).fit_of_ok b hb hfits).1

/-- One step after the other, the first of them after something that may fit or not. -/
theorem CutIf.next (h : CutIf limit fit fits r r') {f f' : α → Except ParseError β}
    (hf : ∀ a, r' = .ok a → CutIf limit (fits a) fits' (f a) (f' a)) :
    CutIf limit fit fits' (r >>= f) (r' >>= f') where
  cut hfit := (h.cut hfit).bind hf
  fit_of_ok b hb hfits := by
    obtain ⟨a, ha, hb⟩ := bind_eq_ok.1 hb
    exact h.fit_of_ok a ha ((hf a ha).fit_of_ok b hb hfits)

/-- If the lower limit is not met, the higher one makes no difference. -/
theorem Cut.eq (h : Cut limit fits r r') (hr : ∀ limit', r ≠ .error (.tooDeep limit')) :
    r' = r := by
  cases h with
  | ok | malformed => rfl
  | beyond | early => exact absurd rfl (hr limit)

/-- The parsers do the same, unless the limit of the first one is met. -/
def CutBy (limit : Nat) (fits : α → Prop) (p p' : Parser α) : Prop :=
  ∀ input, Cut limit (fun r => fits r.1) (p input) (p' input)

end Cut

variable {depth limit limit' stop : Nat} {nested nested' : Parser Expr}

theorem cut_expect (s : Symbol) (scope : Scope) :
    CutBy limit (fun _ => True) (expect ⟨limit, stop⟩ s scope) (expect ⟨limit', stop⟩ s scope) := by
  intro input
  cases input with
  | nil => exact .malformed _
  | cons l rest =>
    rw [expect, expect]
    split
    · exact .ok trivial
    · exact .malformed _

/-! ## Operands -/

theorem cutIf_accesses (object : Expr) (input : List Located) :
    CutIf limit (object.Fits depth limit) (fun r => r.1.Fits depth limit)
      (accesses ⟨limit, stop⟩ object input) (accesses ⟨limit', stop⟩ object input) := by
  fun_induction accesses ⟨limit, stop⟩ object input with
  | case1 object => exact .ok Iff.rfl
  | case2 object l hdot =>
    rw [accesses, if_pos hdot]
    exact .malformed _
  | case3 object l hdot =>
    rw [accesses, if_neg hdot]
    exact .ok Iff.rfl
  | case4 object l name rest hdot text hname ih =>
    rw [accesses, if_pos hdot, hname]
    rwa [Expr.fits_component] at ih
  | case5 object l name rest hdot hname =>
    rw [accesses, if_pos hdot]
    split
    · next text htext => exact absurd htext (hname text)
    · exact .malformed _
  | case6 object l name rest hdot =>
    rw [accesses, if_neg hdot]
    exact .ok Iff.rfl

theorem cut_items (close : Symbol) (scope : Scope)
    (h : CutBy limit (Expr.FitsInside depth limit) nested nested') (fuel : Nat) :
    CutBy limit (fun es => ∀ e ∈ es, e.FitsInside depth limit)
      (items ⟨limit, stop⟩ close scope nested fuel)
      (items ⟨limit', stop⟩ close scope nested' fuel) := by
  induction fuel with
  | zero => exact fun _ => .malformed _
  | succ fuel ih =>
    intro input
    rw [items, items]
    refine (h input).bind fun r _ => ?_
    obtain ⟨item, rest⟩ := r
    cases rest with
    | nil => exact .malformed _
    | cons l rest =>
      dsimp only
      split
      · split
        · split
          · exact .malformed _
          · exact .bind (ih _) fun r _ => .ok List.forall_mem_cons
        · exact .bind (ih _) fun r _ => .ok List.forall_mem_cons
      · split
        · exact .ok List.forall_mem_singleton
        · exact .malformed _

theorem cut_arguments (close : Symbol) (scope : Scope)
    (h : CutBy limit (Expr.FitsInside depth limit) nested nested') :
    CutBy limit (fun es => ∀ e ∈ es, e.FitsInside depth limit)
      (arguments ⟨limit, stop⟩ close scope nested)
      (arguments ⟨limit', stop⟩ close scope nested') := by
  intro input
  cases input with
  | nil => exact cut_items close scope h 1 []
  | cons l rest =>
    rw [arguments, arguments]
    split
    · exact .ok fun _ he => absurd he List.not_mem_nil
    · exact cut_items close scope h _ _

theorem fits_ofWord (text : String) : (ofWord text).Fits depth limit := by
  rw [ofWord]
  split
  · exact ⟨Nat.zero_le _, Nat.zero_le _⟩
  · split <;> exact ⟨Nat.zero_le _, Nat.zero_le _⟩

theorem leading_ofWord (text : String) : (ofWord text).leading = 0 := by
  rw [ofWord]
  split
  · rfl
  · split <;> rfl

theorem cut_atom (h : CutBy limit (Expr.FitsInside depth limit) nested nested') :
    CutBy limit (Expr.Fits depth limit) (atom ⟨limit, stop⟩ nested)
      (atom ⟨limit', stop⟩ nested') := by
  intro input
  cases input with
  | nil => exact .malformed _
  | cons l rest =>
    rw [atom, atom]
    split
    · exact .ok ⟨Nat.zero_le _, Nat.zero_le _⟩
    · cases rest with
      | nil => exact .ok (fits_ofWord _)
      | cons next inner =>
        dsimp only
        split
        · exact (cut_arguments _ _ h inner).bind fun r _ => .ok Expr.fits_call
        · exact .ok (fits_ofWord _)
    · exact (cut_arguments _ _ h rest).bind fun r _ => .ok Expr.fits_list
    · refine (h rest).bind fun r _ => .bind (cut_expect .closeParen .group _) fun _ _ => .ok ?_
      rw [Expr.fits_group, and_true]
    · exact .malformed _

/-- An operand has no operators in front of it. -/
theorem leading_of_atom {x : Extent} {input rest : List Located} {e : Expr}
    (h : atom x nested input = .ok (e, rest)) : e.leading = 0 := by
  cases input with
  | nil => cases h
  | cons l inner =>
    rw [atom] at h
    split at h
    · cases h; rfl
    · split at h
      · cases h; exact leading_ofWord _
      · split at h
        · obtain ⟨_, _, h⟩ := bind_eq_ok.1 h
          cases h; rfl
        · cases h; exact leading_ofWord _
    · obtain ⟨_, _, h⟩ := bind_eq_ok.1 h
      cases h; rfl
    · obtain ⟨_, _, h⟩ := bind_eq_ok.1 h
      obtain ⟨_, _, h⟩ := bind_eq_ok.1 h
      cases h; rfl
    · cases h

theorem leading_of_accesses {x : Extent} {object e : Expr} {input rest : List Located}
    (hobject : object.leading = 0) (h : accesses x object input = .ok (e, rest)) :
    e.leading = 0 := by
  fun_induction accesses x object input with
  | case1 | case3 | case6 =>
    cases h
    exact hobject
  | case2 | case5 => cases h
  | case4 object l name inner hdot text hname ih => exact ih rfl h

theorem cut_unary (hlimit : limit ≤ limit')
    (h : CutBy limit (Expr.FitsInside depth limit) nested nested') :
    CutBy limit (Expr.Fits depth limit) (unary ⟨limit, stop⟩ nested)
      (unary ⟨limit', stop⟩ nested') := by
  intro input
  rw [unary, unary]
  generalize prefixes input = taken
  obtain ⟨ops, rest⟩ := taken
  dsimp only
  by_cases hops : limit < ops.length
  · -- the row of operators is too long
    rw [if_pos hops]
    refine .tooDeep fun r hr hfits => ?_
    split at hr
    · cases hr
    · obtain ⟨⟨object, after⟩, hobject, hr⟩ := bind_eq_ok.1 hr
      obtain ⟨⟨operand, after'⟩, haccesses, hr⟩ := bind_eq_ok.1 hr
      cases hr
      have hlead := leading_of_accesses (leading_of_atom hobject) haccesses
      exact Nat.not_lt.2 ((Expr.fits_foldr_unary ops hlead).1 hfits).1 hops
  · rw [if_neg hops, if_neg fun h => hops (Nat.lt_of_le_of_lt hlimit h)]
    refine (cut_atom h rest).bind fun r hobject => ?_
    obtain ⟨object, after⟩ := r
    refine (cutIf_accesses object after).next fun r haccesses => .ok ?_
    obtain ⟨operand, after'⟩ := r
    have hlead := leading_of_accesses (leading_of_atom hobject) haccesses
    exact (Expr.fits_foldr_unary ops hlead).trans (and_iff_right (Nat.not_lt.1 hops))

theorem cut_powers {base base' right right' : Parser Expr}
    (hbase : CutBy limit (Expr.Fits depth limit) base base')
    (hright : CutBy limit (Expr.FitsInside depth limit) right right') :
    CutBy limit (Expr.Fits depth limit) (powers base right) (powers base' right') := by
  intro input
  refine (hbase input).bind fun r _ => ?_
  obtain ⟨lhs, rest⟩ := r
  cases rest with
  | nil => exact .ok Iff.rfl
  | cons l inner =>
    dsimp only
    split
    · exact .bind (hright inner) fun r _ => .ok Expr.fits_power
    · exact .ok Iff.rfl

/-! ## Levels of operators -/

theorem cutIf_chain {t : Tier} {operand operand' : Parser Expr}
    (h : CutBy limit (Expr.Fits depth limit) operand operand') (fuel : Nat) (lhs : Expr)
    (input : List Located) :
    CutIf limit (lhs.Fits depth limit) (fun r => r.1.Fits depth limit)
      (chain t.operator? operand fuel lhs input) (chain t.operator? operand' fuel lhs input) := by
  induction fuel generalizing lhs input with
  | zero => exact .ok Iff.rfl
  | succ fuel ih =>
    cases input with
    | nil => exact .ok Iff.rfl
    | cons l rest =>
      rw [chain, chain]
      split
      · next op hop =>
        have hpower : op ≠ .power := by
          rintro rfl
          cases ((operator?_eq_some_iff _ _ _).1 hop).2
        refine .bind (h rest) fun r _ => ?_
        obtain ⟨rhs, after⟩ := r
        rw [← Expr.fits_binary hpower]
        exact ih _ after
      · exact .ok Iff.rfl

theorem cut_leftward {t : Tier} {operand operand' : Parser Expr}
    (h : CutBy limit (Expr.Fits depth limit) operand operand') :
    CutBy limit (Expr.Fits depth limit) (leftward t.operator? operand)
      (leftward t.operator? operand') :=
  fun input => (h input).bind fun r _ => cutIf_chain h r.2.length r.1 r.2

theorem cut_logical {exponent exponent' : Parser Expr}
    (h : CutBy limit (Expr.Fits depth limit) exponent exponent') :
    CutBy limit (Expr.Fits depth limit) (logical exponent) (logical exponent') :=
  cut_leftward (t := .logical) <| cut_leftward (t := .additive) <|
    cut_leftward (t := .multiplicative) h

/-- The same for what stands at the start of an expression. -/
def Head.Fits (depth limit : Nat) : Head → Prop
  | .plain e => e.Fits depth limit
  | .compared _ lhs rhs => lhs.Fits depth limit ∧ rhs.Fits depth limit

theorem cut_head {operand operand' : Parser Expr}
    (h : CutBy limit (Expr.Fits depth limit) operand operand') :
    CutBy limit (Head.Fits depth limit) (head operand) (head operand') := by
  intro input
  refine (h input).bind fun r _ => ?_
  obtain ⟨lhs, rest⟩ := r
  cases rest with
  | nil => exact .ok Iff.rfl
  | cons l inner =>
    dsimp only
    split
    · exact .bind (h inner) fun r _ => .ok Iff.rfl
    · exact .ok Iff.rfl

theorem cut_conditional {exponent exponent' : Parser Expr}
    (hexponent : CutBy limit (Expr.Fits depth limit) exponent exponent')
    (h : CutBy limit (Expr.FitsInside depth limit) nested nested') :
    CutBy limit (Expr.Fits depth limit) (conditional ⟨limit, stop⟩ exponent nested)
      (conditional ⟨limit', stop⟩ exponent' nested') := by
  intro input
  refine (cut_head (cut_logical hexponent) input).bind fun r _ => ?_
  obtain ⟨start, rest⟩ := r
  cases start with
  | compared test lhs rhs =>
    dsimp only
    split
    · refine .bind (h rest.tail) fun r _ => ?_
      obtain ⟨ifTrue, after⟩ := r
      refine .bind (cut_expect .colon .ternary after) fun r _ => ?_
      obtain ⟨_, after⟩ := r
      refine .bind (h after) fun r _ => .ok ?_
      obtain ⟨ifFalse, after⟩ := r
      rw [Expr.fits_ternary, ← and_assoc, and_true]
      exact Iff.rfl
    · exact .ok Expr.fits_compare
  | plain e =>
    dsimp only
    split
    · exact .malformed _
    · exact .ok Iff.rfl

/-! ## Nesting -/

/-- Expressions and exponents, with more room and a higher limit. -/
theorem cut_expression (hlimit : limit ≤ limit') {room room' : Nat} (hroom : room ≤ room') :
    CutBy limit (Expr.FitsInside room limit) (expression ⟨limit, stop⟩ room)
        (expression ⟨limit', stop⟩ room') ∧
      CutBy limit (Expr.FitsInside room limit) (deeper ⟨limit, stop⟩ room)
        (deeper ⟨limit', stop⟩ room') := by
  induction room generalizing room' with
  | zero =>
    -- without room there is nothing that fits
    have hnone (e : Expr) : ¬e.FitsInside 0 limit := fun h => Nat.not_lt_zero _ h.1
    refine ⟨fun input => ?_, fun input => .tooDeep fun r _ => hnone r.1⟩
    rw [expression]
    exact .tooDeep fun r _ => hnone r.1
  | succ room ih =>
    obtain _ | room' := room'
    · exact absurd hroom (Nat.not_succ_le_zero _)
    obtain ⟨hnested, hdeeper⟩ := ih (Nat.le_of_succ_le_succ hroom)
    have hfits (e : Expr) : e.FitsInside (room + 1) limit ↔ e.Fits room limit := by
      rw [Expr.FitsInside, Expr.Fits, Nat.lt_succ_iff]
    have hexponent : CutBy limit (Expr.Fits room limit) (exponent ⟨limit, stop⟩ room)
        (exponent ⟨limit', stop⟩ room') := by
      rw [exponent_eq, exponent_eq]
      exact cut_powers (cut_unary hlimit hnested) hdeeper
    simp only [CutBy, hfits]
    rw [expression_succ, expression_succ]
    exact ⟨cut_conditional hexponent hnested, hexponent⟩

/-! ## Chains of numbers and words -/

/-- Whether the lexeme is an operand by itself. -/
def isLeaf : Lexeme → Bool
  | .number _ | .word _ => true
  | .symbol _ => false

/-- The lexemes of operators, each with the operand after it. -/
def joined (links : List (BinaryOp × Lexeme)) : List Lexeme :=
  links.flatMap fun link => [.symbol link.1.sign, link.2]

/-- Operators that group to the left, with operands that have no parts. -/
def AreFlat (links : List (BinaryOp × Lexeme)) : Prop :=
  ∀ link ∈ links, link.1 ≠ .power ∧ isLeaf link.2 = true

/-- A parser takes an operand off a chain, and the operators `taken` as far as they go on. What
    it parses has no nesting. -/
def TakesFlat (taken : BinaryOp → Prop) (p : Parser Expr) : Prop :=
  ∀ ⦃input : List Located⦄ ⦃first : Lexeme⦄ ⦃links : List (BinaryOp × Lexeme)⦄,
    lexemes input = first :: joined links → isLeaf first = true → AreFlat links →
      ∃ e rest links', p input = .ok (e, rest) ∧ lexemes rest = joined links' ∧ links' <:+ links ∧
        (∀ link ∈ links'.head?, ¬taken link.1) ∧ e.Fits 0 0

theorem takesFlat_exponent (x : Extent) (room : Nat) :
    TakesFlat (fun _ => False) (exponent x room) := by
  intro input first links hinput hfirst hlinks
  obtain ⟨l, rest, rfl, rfl, hrest⟩ := exists_of_lexemes_eq_cons hinput
  -- what follows the operand is an operator that it does not go on with
  have hnext : ∀ next ∈ rest.head?, next.lexeme ≠ .symbol .openParen ∧
      next.lexeme ≠ .symbol .dot ∧ next.lexeme ≠ .symbol .caret := by
    intro next hnext
    obtain ⟨inner, rfl⟩ := List.head?_eq_some_iff.1 hnext
    cases links with
    | nil => cases hrest
    | cons link links =>
      have hop := (hlinks link List.mem_cons_self).1
      have hsign : next.lexeme = .symbol link.1.sign := (List.cons.inj hrest).1
      rw [hsign]
      generalize link.1 = op at hop
      cases op <;> first | contradiction | decide
  have hatom : ∃ e, atom x (expression x room) (l :: rest) = .ok (e, rest) ∧ e.Fits 0 0 ∧
      prefixes (l :: rest) = ([], l :: rest) := by
    rw [atom, prefixes]
    cases hl : l.lexeme with
    | number text => exact ⟨_, rfl, ⟨Nat.le_refl _, Nat.le_refl _⟩, rfl⟩
    | symbol s =>
      rw [hl] at hfirst
      cases hfirst
    | word text =>
      refine ⟨ofWord text, ?_, fits_ofWord text, rfl⟩
      cases rest with
      | nil => rfl
      | cons next inner => exact if_neg (hnext next rfl).1
  obtain ⟨e, hatom, hfits, hprefixes⟩ := hatom
  have haccesses : accesses x e rest = .ok (e, rest) := by
    rcases rest with _ | ⟨next, _ | ⟨name, inner⟩⟩
    · rfl
    · exact if_neg (hnext next rfl).2.1
    · exact if_neg (hnext next rfl).2.1
  have hunary : unary x (expression x room) (l :: rest) = .ok (e, rest) := by
    simp [unary, hprefixes, hatom, haccesses, bind, Except.bind]
  refine ⟨e, rest, links, ?_, hrest, List.suffix_refl _, fun _ _ => id, hfits⟩
  rw [exponent_eq, powers, hunary]
  cases rest with
  | nil => rfl
  | cons next inner => exact if_neg (hnext next rfl).2.2

theorem length_joined (links : List (BinaryOp × Lexeme)) :
    (joined links).length = 2 * links.length := by
  induction links with
  | nil => rfl
  | cons link links ih =>
    show (joined links).length + 2 = 2 * (links.length + 1)
    rw [ih, Nat.mul_succ]

theorem takesFlat_chain {taken : BinaryOp → Prop} {t : Tier} {operand : Parser Expr}
    (h : TakesFlat taken operand) {fuel : Nat} {lhs : Expr} {input : List Located}
    {links : List (BinaryOp × Lexeme)} (hfuel : links.length ≤ fuel)
    (hinput : lexemes input = joined links) (hlinks : AreFlat links)
    (htaken : ∀ link ∈ links.head?, ¬taken link.1) (hlhs : lhs.Fits 0 0) :
    ∃ e rest links', chain t.operator? operand fuel lhs input = .ok (e, rest) ∧
      lexemes rest = joined links' ∧ links' <:+ links ∧
      (∀ link ∈ links'.head?, ¬(taken link.1 ∨ tier? link.1 = some t)) ∧ e.Fits 0 0 := by
  induction fuel generalizing lhs input links with
  | zero =>
    obtain rfl := List.length_eq_zero_iff.1 (Nat.le_zero.1 hfuel)
    exact ⟨lhs, input, [], rfl, hinput, List.suffix_refl _, by simp, hlhs⟩
  | succ fuel ih =>
    cases links with
    | nil =>
      obtain rfl := eq_nil_of_lexemes_eq_nil hinput
      exact ⟨lhs, [], [], rfl, rfl, List.suffix_refl _, by simp, hlhs⟩
    | cons link links =>
      obtain ⟨l, inner, rfl, hl, hinner⟩ := exists_of_lexemes_eq_cons hinput
      rw [chain]
      by_cases htier : tier? link.1 = some t
      · -- the operand after the operator, and then the operators after that
        rw [(operator?_eq_some_iff t _ _).2 ⟨hl, htier⟩]
        have hlink := hlinks link List.mem_cons_self
        obtain ⟨rhs, rest, links', hrhs, hrest, hsuffix, htaken', hfits⟩ :=
          h hinner hlink.2 fun k hk => hlinks k (List.mem_cons_of_mem _ hk)
        have hbinary : (Expr.binary link.1 lhs rhs).Fits 0 0 :=
          (Expr.fits_binary hlink.1).2 ⟨hlhs, hfits⟩
        have hlength := hsuffix.length_le
        rw [List.length_cons] at hfuel
        obtain ⟨e, left, links'', hchain, hleft, hsuffix', hend⟩ := ih (by omega) hrest
          (fun k hk => hlinks k (List.mem_cons_of_mem _ (hsuffix.mem hk))) htaken' hbinary
        refine ⟨e, left, links'', ?_, hleft,
          (hsuffix'.trans hsuffix).trans (List.suffix_cons _ _), hend⟩
        simp only [hrhs, bind, Except.bind, hchain]
      · -- an operator of another level
        have hnone : t.operator? l.lexeme = none := by
          cases hop : t.operator? l.lexeme with
          | none => rfl
          | some op =>
            obtain ⟨hsign, htier'⟩ := (operator?_eq_some_iff _ _ _).1 hop
            have hsigns : op.sign = link.1.sign := by simpa [hl] using hsign.symm
            exact absurd (BinaryOp.sign_injective hsigns ▸ htier') htier
        rw [hnone]
        refine ⟨lhs, l :: inner, link :: links, rfl, hinput, List.suffix_refl _, ?_, hlhs⟩
        rintro _ ⟨⟩ (hlink | hlink)
        · exact htaken link rfl hlink
        · exact htier hlink

theorem takesFlat_leftward {taken : BinaryOp → Prop} (t : Tier) {operand : Parser Expr}
    (h : TakesFlat taken operand) :
    TakesFlat (fun op => taken op ∨ tier? op = some t) (leftward t.operator? operand) := by
  intro input first links hinput hfirst hlinks
  obtain ⟨lhs, rest, links', hlhs, hrest, hsuffix, htaken, hfits⟩ := h hinput hfirst hlinks
  have hfuel : links'.length ≤ rest.length := by
    rw [← length_lexemes, hrest, length_joined]
    omega
  obtain ⟨e, left, links'', hchain, hleft, hsuffix', hend⟩ := takesFlat_chain h (t := t) hfuel hrest
    (fun k hk => hlinks k (hsuffix.mem hk)) htaken hfits
  refine ⟨e, left, links'', ?_, hleft, hsuffix'.trans hsuffix, hend⟩
  rw [leftward, hlhs]
  exact hchain

/-- A chain of numbers and words is an expression without nesting. -/
theorem expression_of_joined (x : Extent) (room : Nat) {input : List Located} {first : Lexeme}
    {links : List (BinaryOp × Lexeme)} (hinput : lexemes input = first :: joined links)
    (hfirst : isLeaf first = true) (hlinks : AreFlat links) :
    ∃ e, expression x (room + 1) input = .ok (e, []) ∧ e.Fits 0 0 := by
  have hlogical := takesFlat_leftward .logical (takesFlat_leftward .additive
    (takesFlat_leftward .multiplicative (takesFlat_exponent x room)))
  obtain ⟨e, rest, links', he, hrest, hsuffix, htaken, hfits⟩ := hlogical hinput hfirst hlinks
  -- there is no operator that could be left
  obtain rfl : links' = [] := by
    cases links' with
    | nil => rfl
    | cons link links' =>
      have hop := (hlinks link (hsuffix.mem List.mem_cons_self)).1
      refine absurd ?_ (htaken link rfl)
      generalize link.1 = op at hop
      cases op <;> simp [tier?] at hop ⊢
  obtain rfl := eq_nil_of_lexemes_eq_nil hrest
  refine ⟨e, ?_, hfits⟩
  have hhead : head (logical (exponent x room)) input = .ok (.plain e, []) := by
    have he : logical (exponent x room) input = .ok (e, []) := he
    rw [head, he]
    rfl
  rw [expression_succ, conditional, hhead]
  rfl

end Parser

/-! ## Sources -/

namespace Statement

open Grammar

variable {limit limit' : Nat} {source : String} {s : Statement}

/-- The least limit that is enough for the tree: beyond its nesting, and as long as its longest
    row of operators in front of an operand. -/
def threshold (s : Statement) : Nat := max (1 + s.expression.nesting) s.expression.longestRow

theorem threshold_le_iff : s.threshold ≤ limit ↔ s.expression.FitsInside limit limit := by
  rw [threshold, Expr.FitsInside, Nat.max_le, Nat.add_comm, Nat.succ_le_iff]

theorem cut_ofLexemes (hlimit : limit ≤ limit') (stop : Nat) (input : List Located) :
    Parser.Cut limit (fun s : Statement => s.threshold ≤ limit) (ofLexemes ⟨limit, stop⟩ input)
      (ofLexemes ⟨limit', stop⟩ input) := by
  rw [ofLexemes, ofLexemes]
  generalize destination? input = start
  obtain ⟨destination, inner⟩ := start
  refine ((Parser.cut_expression hlimit hlimit).1 inner).bind fun r _ => ?_
  obtain ⟨e, rest⟩ := r
  cases rest with
  | nil => exact .ok threshold_le_iff
  | cons l rest => exact .malformed _

/-- A source with two limits. -/
theorem cut_parse (hlimit : limit ≤ limit') (source : String) :
    Parser.Cut limit (fun s : Statement => s.threshold ≤ limit) (parse limit source)
      (parse limit' source) := by
  cases hscan : Lexeme.scan source with
  | error e =>
    rw [parse, parse, hscan]
    exact .malformed e
  | ok input =>
    rw [parse_eq hscan, parse_eq hscan]
    exact cut_ofLexemes hlimit _ input

/-- A limit that is not met may be raised. -/
theorem parse_of_le (hlimit : limit ≤ limit')
    (h : ∀ limit'', parse limit source ≠ .error (.tooDeep limit'')) :
    parse limit' source = parse limit source :=
  (cut_parse hlimit source).eq h

/-- A limit that is enough is not below the threshold. -/
theorem threshold_le (h : parse limit source = .ok s) : s.threshold ≤ limit := by
  have hcut := cut_parse (Nat.le_refl limit) source
  rw [h] at hcut
  cases hcut with
  | ok h => exact h

/-- With any other limit, an accepted source is accepted just from its threshold on. -/
theorem parse_of_ok (h : parse limit source = .ok s) (d : Nat) :
    (s.threshold ≤ d → parse d source = .ok s) ∧
      (d < s.threshold → parse d source = .error (.tooDeep d)) := by
  rcases Nat.le_total limit d with hle | hle
  · have hd : parse d source = .ok s := by
      rw [parse_of_le hle (by simp [h]), h]
    exact ⟨fun _ => hd, fun hlt => absurd (threshold_le hd) (Nat.not_le.2 hlt)⟩
  · have hcut := cut_parse hle source
    rw [h] at hcut
    generalize parse d source = r at hcut ⊢
    cases hcut with
    | ok hfits => exact ⟨fun _ => rfl, fun hlt => absurd hfits (Nat.not_le.2 hlt)⟩
    | beyond hfits => exact ⟨fun hle => absurd hle hfits, fun _ => rfl⟩

/-- A source that is a chain of numbers and words needs the least limit. -/
theorem parse_of_joined {input : List Located} {first : Lexeme} {links : List (BinaryOp × Lexeme)}
    (hscan : Lexeme.scan source = .ok input)
    (hinput : Parser.lexemes input = first :: Parser.joined links)
    (hfirst : Parser.isLeaf first = true) (hlinks : Parser.AreFlat links) :
    ∃ s, parse 1 source = .ok s ∧ s.threshold = 1 := by
  have hdest : destination? input = (none, input) := by
    rcases destination?_cases input with ⟨name, rest, -, hl⟩ | ⟨hdest, -⟩
    · -- an equals sign is no operator
      rw [hinput] at hl
      cases links with
      | nil => cases hl
      | cons link links =>
        have hsign : Lexeme.symbol link.1.sign = .symbol .assign :=
          (List.cons.inj (List.cons.inj hl).2).1
        generalize link.1 = op at hsign
        cases op <;> cases hsign
    · exact hdest
  obtain ⟨e, he, hnesting, hrow⟩ :=
    Parser.expression_of_joined ⟨1, source.utf8ByteSize⟩ 0 hinput hfirst hlinks
  refine ⟨⟨none, e⟩, ?_, ?_⟩
  · rw [parse_eq hscan, ofLexemes, hdest]
    dsimp only
    rw [he]
    rfl
  · rw [threshold, Nat.le_zero.1 hnesting, Nat.le_zero.1 hrow]
    rfl

/-- The limit is a threshold. A limit that is not met may be raised without a change. If a
    source is accepted with some limit, then the limits that are enough for it are those beyond
    the nesting of its tree that also allow for its longest row of operators in front of an
    operand, and all others are met. For chains of numbers and words this is the least limit. -/
theorem parse_threshold (source : String) :
    (∀ d d', d ≤ d' → (∀ limit, parse d source ≠ .error (.tooDeep limit)) →
      parse d' source = parse d source) ∧
    (∀ limit s, parse limit source = .ok s → ∀ d,
      (max (1 + s.expression.nesting) s.expression.longestRow ≤ d → parse d source = .ok s) ∧
      (d < max (1 + s.expression.nesting) s.expression.longestRow →
        parse d source = .error (.tooDeep d))) ∧
    ∀ input first links, Lexeme.scan source = .ok input →
      Parser.lexemes input = first :: Parser.joined links → Parser.isLeaf first = true →
      (∀ link ∈ links, link.1 ≠ .power ∧ Parser.isLeaf link.2 = true) →
      ∃ s, parse 1 source = .ok s ∧
        max (1 + s.expression.nesting) s.expression.longestRow = 1 :=
  ⟨fun _ _ hle h => parse_of_le hle h, fun _ _ h d => parse_of_ok h d,
    fun _ _ _ hscan hinput hfirst hlinks => parse_of_joined hscan hinput hfirst hlinks⟩

/-- An argument in a call, a group in it and two exponents in the group need a limit of five; a
    sum without a second operand fails with every limit; and a chain needs a limit of one. -/
theorem parse_threshold_nested :
    (∃ s, (∀ d, 5 ≤ d → parse d "f(-(a ^ b ^ !-c), 1)" = .ok s) ∧
      ∀ d < 5, parse d "f(-(a ^ b ^ !-c), 1)" = .error (.tooDeep d)) ∧
    (∀ d, 1 ≤ d → parse d "a +" = parse 1 "a +") ∧
    ∃ s, parse 1 "a - 2 * b" = .ok s := by
  refine ⟨?_, fun d hd => ?_, ?_⟩
  · have haccepted : ((parse 9 "f(-(a ^ b ^ !-c), 1)").toOption.map threshold) = some 5 := by
      decide +kernel
    cases hs : parse 9 "f(-(a ^ b ^ !-c), 1)" with
    | error e =>
      rw [hs] at haccepted
      cases haccepted
    | ok s =>
      rw [hs] at haccepted
      have hthreshold : max (1 + s.expression.nesting) s.expression.longestRow = 5 :=
        Option.some.inj haccepted
      have hlimits := (parse_threshold _).2.1 9 s hs
      rw [hthreshold] at hlimits
      exact ⟨s, fun d hd => (hlimits d).1 hd, fun d hd => (hlimits d).2 hd⟩
  · refine (parse_threshold "a +").1 1 d hd fun limit h => ?_
    have hmalformed : (match parse 1 "a +" with
      | .error (.malformed _) => true
      | _ => false) = true := by decide +kernel
    rw [h] at hmalformed
    cases hmalformed
  · have hscan : Lexeme.scan "a - 2 * b" = .ok
        [⟨.word "a", ⟨0, 1⟩⟩, ⟨.symbol .minus, ⟨2, 3⟩⟩, ⟨.number "2", ⟨4, 5⟩⟩,
          ⟨.symbol .star, ⟨6, 7⟩⟩, ⟨.word "b", ⟨8, 9⟩⟩] := by
      rw [Lexeme.scan_eq_scanWithin]
      rfl
    obtain ⟨s, hs, -⟩ := (parse_threshold "a - 2 * b").2.2 _ (.word "a")
      [(.subtract, .number "2"), (.multiply, .word "b")] hscan rfl rfl (by decide)
    exact ⟨s, hs⟩

end Statement

end RigExpr
