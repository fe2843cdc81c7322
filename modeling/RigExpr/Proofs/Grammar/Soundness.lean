import RigExpr.Expr.Parse
import RigExpr.Proofs.Grammar.Derivation

/-!
# What a parser accepts is derivable

A parser is *sound* for a nonterminal if it takes the lexemes of a derivation off
its input, and its expression has the tokens of that derivation in post-order.
Every parser is sound for the nonterminal of its name, since the parsers that it
is given are.

* `sound_expression`: so is the parser of expressions, with any room for nesting.
-/

namespace RigExpr

namespace Grammar

/-- The operators of a level, as the parser knows them. -/
def Tier.operator? : Tier → Lexeme → Option BinaryOp
  | logical => Parser.logical?
  | additive => Parser.additive?
  | multiplicative => Parser.multiplicative?

theorem operator?_eq_some_iff (t : Tier) (l : Lexeme) (op : BinaryOp) :
    t.operator? l = some op ↔ l = .symbol op.sign ∧ tier? op = some t := by
  rcases l with _ | _ | s
  · cases t <;> simp [Tier.operator?, Parser.logical?, Parser.additive?, Parser.multiplicative?]
  · cases t <;> simp [Tier.operator?, Parser.logical?, Parser.additive?, Parser.multiplicative?]
  · rw [Lexeme.symbol.injEq]
    cases t <;> cases op <;> cases s <;> decide

theorem comparison?_eq_some_iff (l : Lexeme) (test : Comparison) :
    Parser.comparison? l = some test ↔ l = .symbol test.sign := by
  rcases l with _ | _ | s
  · simp [Parser.comparison?]
  · simp [Parser.comparison?]
  · rw [Lexeme.symbol.injEq]
    cases test <;> cases s <;> decide

theorem unary?_eq_some_iff (l : Lexeme) (op : UnaryOp) :
    Parser.unary? l = some op ↔ l = .symbol op.sign := by
  rcases l with _ | _ | s
  · simp [Parser.unary?]
  · simp [Parser.unary?]
  · rw [Lexeme.symbol.injEq]
    cases op <;> cases s <;> decide

end Grammar

namespace Parser

open Grammar Derivation

variable {x : Extent} {nested : Parser Expr}

/-- Of two steps that succeed, the first one does. -/
theorem bind_eq_ok {ε α β : Type} {a : Except ε α} {f : α → Except ε β} {b : β} :
    (a >>= f) = .ok b ↔ ∃ r, a = .ok r ∧ f r = .ok b := by
  cases a <;> simp [bind, Except.bind]

/-- Lexemes without their places. -/
def lexemes (input : List Located) : List Lexeme := input.map (·.lexeme)

@[simp] theorem lexemes_nil : lexemes [] = [] := rfl

@[simp] theorem lexemes_cons (l : Located) (input : List Located) :
    lexemes (l :: input) = l.lexeme :: lexemes input := rfl

/-- A parser takes the lexemes of a derivation off its input, and its expression
    is that derivation in post-order. -/
def Sound (p : Parser Expr) (n : Nonterminal) : Prop :=
  ∀ ⦃input rest : List Located⦄ ⦃e : Expr⦄, p input = .ok (e, rest) →
    ∃ d : Derivation n, lexemes input = d.lexemes ++ lexemes rest ∧ e.tokens = d.postorder

theorem sound_tooDeep (n : Nonterminal) : Sound (tooDeep x) n := by
  intro _ _ _ h
  cases h

theorem lexemes_of_expect {s : Symbol} {scope : Scope} {input rest : List Located}
    (h : expect x s scope input = .ok ((), rest)) :
    lexemes input = .symbol s :: lexemes rest := by
  cases input with
  | nil => cases h
  | cons l inner =>
    rw [expect] at h
    split at h
    · next hl => cases h; rw [lexemes_cons, hl]
    · cases h

/-! ## Operands -/

theorem lexemes_prefixes (input : List Located) :
    lexemes input = signs (prefixes input).1 ++ lexemes (prefixes input).2 := by
  induction input with
  | nil => rfl
  | cons l rest ih =>
    rw [prefixes]
    split
    · next op h =>
      show l.lexeme :: lexemes rest = .symbol op.sign :: (signs _ ++ lexemes _)
      rw [(unary?_eq_some_iff _ _).1 h, ih]
    · rfl

theorem sound_accesses {object e : Expr} {input rest : List Located}
    (h : accesses x object input = .ok (e, rest)) :
    ∃ names : List String, lexemes input = Derivation.accesses names ++ lexemes rest ∧
      e.tokens = object.tokens ++ names.map fun name => .component (.ofName name) := by
  fun_induction accesses x object input with
  | case1 object => cases h; exact ⟨[], rfl, by simp⟩
  | case2 => cases h
  | case3 object l _ => cases h; exact ⟨[], rfl, by simp⟩
  | case4 object l name inner hl text hn ih =>
    obtain ⟨names, hi, he⟩ := ih h
    refine ⟨text :: names, ?_, ?_⟩
    · rw [lexemes_cons, lexemes_cons, hl, hn, hi]
      rfl
    · rw [he, Expr.tokens, List.map_cons, List.append_assoc]
      rfl
  | case5 => cases h
  | case6 object l name inner hl => cases h; exact ⟨[], rfl, by simp⟩

/-- Expressions between commas and up to `close` stand at the start of `input`, and
    are these in post-order. -/
def ItemsBetween (close : Symbol) (input rest : List Located) (es : List Expr) : Prop :=
  ∃ (first : Derivation .expression) (more : Derivation .further),
    lexemes input = first.lexemes ++ more.lexemes ++ .symbol close :: lexemes rest ∧
      Expr.tokensAll es = first.postorder ++ more.postorder ∧ es.length = more.count + 1

/-- An item and the items after a comma are items. -/
theorem ItemsBetween.cons {close : Symbol} {input after rest : List Located} {item : Expr}
    {es : List Expr} (h : ItemsBetween close after rest es) {first : Derivation .expression}
    (hl : lexemes input = first.lexemes ++ .symbol .comma :: lexemes after)
    (ht : item.tokens = first.postorder) : ItemsBetween close input rest (item :: es) := by
  obtain ⟨next, others, hl', ht', hc'⟩ := h
  refine ⟨first, .further next others, ?_, ?_, ?_⟩
  · rw [hl, hl']
    simp [Derivation.lexemes]
  · rw [Expr.tokensAll, ht, ht']
    rfl
  · rw [List.length_cons, hc']
    rfl

theorem sound_items (hn : Sound nested .expression) {close : Symbol} {scope : Scope}
    {fuel : Nat} {input rest : List Located} {es : List Expr}
    (h : items x close scope nested fuel input = .ok (es, rest)) :
    ItemsBetween close input rest es := by
  induction fuel generalizing input rest es with
  | zero => cases h
  | succ fuel ih =>
    rw [items] at h
    obtain ⟨⟨item, after⟩, hi, h⟩ := bind_eq_ok.1 h
    obtain ⟨first, hl, ht⟩ := hn hi
    cases after with
    | nil => cases h
    | cons l inner =>
      rw [lexemes_cons] at hl
      dsimp only at h
      split at h
      · next hc =>
        rw [hc] at hl
        -- whether or not lexemes are left after the comma, items have to follow
        split at h
        · split at h
          · cases h
          · obtain ⟨⟨others, after⟩, ho, h⟩ := bind_eq_ok.1 h
            cases h
            exact (ih ho).cons hl ht
        · obtain ⟨⟨others, after⟩, ho, h⟩ := bind_eq_ok.1 h
          cases h
          exact (ih ho).cons hl ht
      · split at h
        · next hc =>
          cases h
          rw [hc] at hl
          refine ⟨first, .noFurther, ?_, ?_, rfl⟩
          · rw [hl]
            simp [Derivation.lexemes]
          · rw [Expr.tokensAll, Expr.tokensAll, ht]
            rfl
        · cases h

theorem sound_arguments (hn : Sound nested .expression) {close : Symbol} {scope : Scope}
    {input rest : List Located} {es : List Expr}
    (h : arguments x close scope nested input = .ok (es, rest)) :
    ∃ d : Derivation .arguments, lexemes input = d.lexemes ++ .symbol close :: lexemes rest ∧
      Expr.tokensAll es = d.postorder ∧ es.length = d.count := by
  have hitems (hi : ItemsBetween close input rest es) :
      ∃ d : Derivation .arguments, lexemes input = d.lexemes ++ .symbol close :: lexemes rest ∧
        Expr.tokensAll es = d.postorder ∧ es.length = d.count := by
    obtain ⟨first, more, hl, ht, hc⟩ := hi
    exact ⟨.argument first more, hl, ht, hc⟩
  cases input with
  | nil => exact hitems (sound_items hn h)
  | cons l inner =>
    rw [arguments] at h
    split at h
    · next hc =>
      cases h
      exact ⟨.noArgument, by rw [lexemes_cons, hc]; rfl, rfl, rfl⟩
    · exact hitems (sound_items hn h)

theorem tokens_ofWord (text : String) : (ofWord text).tokens = [Token.ofWord text] := by
  rw [ofWord, Token.ofWord]
  cases Constant.ofKeyword? text with
  | some c => rfl
  | none => cases RotateOrder.ofKeyword? text <;> rfl

theorem sound_atom (hn : Sound nested .expression) : Sound (atom x nested) .atom := by
  intro input rest e h
  cases input with
  | nil => cases h
  | cons l inner =>
    rw [atom] at h
    split at h
    · next text hl =>
      cases h
      exact ⟨.number text, by rw [lexemes_cons, hl]; rfl, rfl⟩
    · next text hl =>
      cases inner with
      | nil =>
        cases h
        exact ⟨.word text, by rw [lexemes_cons, hl]; rfl, tokens_ofWord text⟩
      | cons next inner =>
        dsimp only at h
        split at h
        · next ho =>
          obtain ⟨⟨args, after⟩, ha, h⟩ := bind_eq_ok.1 h
          cases h
          obtain ⟨d, hd, ht, hc⟩ := sound_arguments hn ha
          refine ⟨.call text d, ?_, ?_⟩
          · rw [lexemes_cons, lexemes_cons, hl, ho, hd]
            simp [Derivation.lexemes]
          · rw [Expr.tokens, ht, hc]
            rfl
        · cases h
          exact ⟨.word text, by rw [lexemes_cons, hl]; rfl, tokens_ofWord text⟩
    · next hl =>
      obtain ⟨⟨entries, after⟩, ha, h⟩ := bind_eq_ok.1 h
      cases h
      obtain ⟨d, hd, ht, hc⟩ := sound_arguments hn ha
      refine ⟨.list d, ?_, ?_⟩
      · rw [lexemes_cons, hl, hd]
        simp [Derivation.lexemes]
      · rw [Expr.tokens, ht, hc]
        rfl
    · next hl =>
      obtain ⟨⟨inside, after⟩, ha, h⟩ := bind_eq_ok.1 h
      obtain ⟨⟨⟨⟩, after'⟩, hc, h⟩ := bind_eq_ok.1 h
      cases h
      obtain ⟨d, hd, ht⟩ := hn ha
      refine ⟨.group d, ?_, ?_⟩
      · rw [lexemes_cons, hl, hd, lexemes_of_expect hc]
        simp [Derivation.lexemes]
      · rw [Expr.tokens, ht]
        rfl
    · cases h

theorem tokens_foldr_unary (ops : List UnaryOp) (e : Expr) :
    (ops.foldr .unary e).tokens = e.tokens ++ ops.reverse.map UnaryOp.token := by
  induction ops with
  | nil => simp
  | cons op ops ih => simp [Expr.tokens, ih]

theorem sound_unary (hn : Sound nested .expression) : Sound (unary x nested) .unary := by
  intro input rest e h
  rw [unary] at h
  dsimp only at h
  split at h
  · cases h
  · obtain ⟨⟨object, after⟩, ho, h⟩ := bind_eq_ok.1 h
    obtain ⟨⟨operand, after'⟩, ha, h⟩ := bind_eq_ok.1 h
    cases h
    obtain ⟨d, hd, ht⟩ := sound_atom hn ho
    obtain ⟨names, hl, ht'⟩ := sound_accesses ha
    refine ⟨.unary (prefixes input).1 d names, ?_, ?_⟩
    · rw [lexemes_prefixes input, hd, hl]
      simp [Derivation.lexemes]
    · rw [tokens_foldr_unary, ht', ht]
      rfl

theorem sound_powers {base right : Parser Expr} (hb : Sound base .unary)
    (hr : Sound right .exponent) : Sound (powers base right) .exponent := by
  intro input rest e h
  obtain ⟨⟨lhs, after⟩, hlhs, h⟩ := bind_eq_ok.1 h
  obtain ⟨d, hd, ht⟩ := hb hlhs
  cases after with
  | nil => cases h; exact ⟨.base d, hd, ht⟩
  | cons l inner =>
    dsimp only at h
    split at h
    · next hl =>
      obtain ⟨⟨rhs, after⟩, hrhs, h⟩ := bind_eq_ok.1 h
      cases h
      obtain ⟨d', hd', ht'⟩ := hr hrhs
      refine ⟨.power d d', ?_, ?_⟩
      · rw [hd, lexemes_cons, hl, hd']
        simp [Derivation.lexemes]
      · rw [Expr.tokens, ht, ht']
        rfl
    · cases h; exact ⟨.base d, hd, ht⟩

/-! ## Levels of operators -/

theorem sound_chain {t : Tier} {operand : Parser Expr} (ho : Sound operand t.operand)
    {fuel : Nat} {lhs e : Expr} {input rest : List Located}
    (h : chain t.operator? operand fuel lhs input = .ok (e, rest)) :
    ∃ d : Derivation (.links t), lexemes input = d.lexemes ++ lexemes rest ∧
      e.tokens = lhs.tokens ++ d.postorder := by
  fun_induction chain t.operator? operand fuel lhs input with
  | case1 => cases h; exact ⟨.noLink, rfl, by simp [Derivation.postorder]⟩
  | case2 => cases h; exact ⟨.noLink, rfl, by simp [Derivation.postorder]⟩
  | case3 fuel lhs l inner op hop ih =>
    obtain ⟨⟨rhs, after⟩, hr, h⟩ := bind_eq_ok.1 h
    obtain ⟨d, hd, ht⟩ := ho hr
    obtain ⟨links, hl, ht'⟩ := ih rhs after h
    obtain ⟨hsign, htier⟩ := (operator?_eq_some_iff _ _ _).1 hop
    refine ⟨.link op htier d links, ?_, ?_⟩
    · rw [lexemes_cons, hsign, hd, hl]
      simp [Derivation.lexemes]
    · rw [ht', Expr.tokens, ht]
      simp [Derivation.postorder]
  | case4 => cases h; exact ⟨.noLink, rfl, by simp [Derivation.postorder]⟩

theorem sound_leftward {t : Tier} {operand : Parser Expr} (ho : Sound operand t.operand) :
    Sound (leftward t.operator? operand) (.chain t) := by
  intro input rest e h
  obtain ⟨⟨lhs, after⟩, hlhs, h⟩ := bind_eq_ok.1 h
  obtain ⟨d, hd, ht⟩ := ho hlhs
  obtain ⟨links, hl, ht'⟩ := sound_chain ho h
  refine ⟨.chain d links, ?_, ?_⟩
  · rw [hd, hl]
    simp [Derivation.lexemes]
  · rw [ht', ht]
    rfl

theorem sound_logical {exponent : Parser Expr} (he : Sound exponent .exponent) :
    Sound (logical exponent) (.chain .logical) :=
  have hm : Sound (leftward multiplicative? exponent) (.chain .multiplicative) :=
    sound_leftward (t := .multiplicative) he
  have ha : Sound (leftward additive? _) (.chain .additive) := sound_leftward (t := .additive) hm
  sound_leftward (t := .logical) ha

theorem nextIs_eq_true_iff {s : Symbol} {input : List Located} :
    nextIs s input = true ↔ lexemes input = .symbol s :: lexemes input.tail := by
  cases input <;> simp [nextIs]

/-- What a start of an expression derives. -/
def Head.Derives (input rest : List Located) : Head → Prop
  | .plain e => ∃ d : Derivation (.chain .logical),
      lexemes input = d.lexemes ++ lexemes rest ∧ e.tokens = d.postorder
  | .compared test lhs rhs => ∃ d d' : Derivation (.chain .logical),
      lexemes input = d.lexemes ++ .symbol test.sign :: (d'.lexemes ++ lexemes rest) ∧
        lhs.tokens = d.postorder ∧ rhs.tokens = d'.postorder

theorem derives_head {operand : Parser Expr} (ho : Sound operand (.chain .logical))
    {input rest : List Located} {start : Head} (h : head operand input = .ok (start, rest)) :
    start.Derives input rest := by
  obtain ⟨⟨lhs, after⟩, hlhs, h⟩ := bind_eq_ok.1 h
  obtain ⟨d, hd, ht⟩ := ho hlhs
  cases after with
  | nil => cases h; exact ⟨d, hd, ht⟩
  | cons l inner =>
    dsimp only at h
    split at h
    · next test htest =>
      obtain ⟨⟨rhs, after⟩, hrhs, h⟩ := bind_eq_ok.1 h
      cases h
      obtain ⟨d', hd', ht'⟩ := ho hrhs
      refine ⟨d, d', ?_, ht, ht'⟩
      rw [hd, lexemes_cons, (comparison?_eq_some_iff _ _).1 htest, hd']
    · cases h; exact ⟨d, hd, ht⟩

theorem sound_conditional {exponent : Parser Expr} (he : Sound exponent .exponent)
    (hn : Sound nested .expression) : Sound (conditional x exponent nested) .expression := by
  intro input rest e h
  obtain ⟨⟨start, after⟩, hs, h⟩ := bind_eq_ok.1 h
  have hd := derives_head (sound_logical he) hs
  cases start with
  | plain e' =>
    obtain ⟨d, hd, ht⟩ := hd
    dsimp only at h
    split at h
    · cases h
    · cases h; exact ⟨.plain (.bare d), hd, ht⟩
  | compared test lhs rhs =>
    obtain ⟨d, d', hd, ht, ht'⟩ := hd
    dsimp only at h
    split at h
    · next hq =>
      obtain ⟨⟨ifTrue, after₁⟩, h₁, h⟩ := bind_eq_ok.1 h
      obtain ⟨⟨⟨⟩, after₂⟩, h₂, h⟩ := bind_eq_ok.1 h
      obtain ⟨⟨ifFalse, after₃⟩, h₃, h⟩ := bind_eq_ok.1 h
      cases h
      obtain ⟨d₁, hd₁, ht₁⟩ := hn h₁
      obtain ⟨d₃, hd₃, ht₃⟩ := hn h₃
      refine ⟨.ternary d test d' d₁ d₃, ?_, ?_⟩
      · rw [hd, nextIs_eq_true_iff.1 hq, hd₁, lexemes_of_expect h₂, hd₃]
        simp [Derivation.lexemes]
      · rw [Expr.tokens, ht, ht', ht₁, ht₃]
        rfl
    · cases h
      refine ⟨.plain (.compared d test d'), ?_, ?_⟩
      · rw [hd]
        simp [Derivation.lexemes]
      · rw [Expr.tokens, ht, ht']
        rfl

/-! ## Nesting -/

theorem sound_exponent (room : Nat) (he : Sound (expression x room) .expression)
    (hd : Sound (deeper x room) .exponent) : Sound (exponent x room) .exponent := by
  rw [exponent_eq]
  exact sound_powers (sound_unary he) hd

/-- With one more level of room, both nesting parsers rest on those without it. -/
theorem sound_nesting (room : Nat) :
    Sound (expression x room) .expression ∧ Sound (deeper x room) .exponent := by
  induction room with
  | zero =>
    refine ⟨?_, sound_tooDeep _⟩
    intro input rest e h
    rw [expression] at h
    exact sound_tooDeep _ h
  | succ room ih =>
    have hexp := sound_exponent room ih.1 ih.2
    rw [expression_succ]
    exact ⟨sound_conditional hexp ih.1, hexp⟩

theorem sound_expression (x : Extent) (room : Nat) : Sound (expression x room) .expression :=
  (sound_nesting room).1

end Parser

end RigExpr
