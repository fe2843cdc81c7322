import RigExpr.Proofs.Grammar.Sources

/-!
# What parsers look at

A parser decides about its input lexeme by lexeme. What it comes to depends on the lexemes that
it takes and on the one after them, and if it fails, on the lexemes up to the one where it
fails (`Parser.Decided`). The lexemes before that one can be gone on with: a few words, closing
lexemes and colons complete them to a derivation (`Grammar.Starts`). Each parser is decided in
this way since the parsers that it is given are.

* `Parser.decided_expression`: so is the parser of expressions.
-/

namespace RigExpr

namespace Grammar

/-- The lexemes that complete what has been started. -/
def fillers : List Lexeme :=
  [.word "a", .symbol .closeParen, .symbol .closeBracket, .symbol .colon]

/-- Fillers complete the lexemes to one of `derived`. -/
def Starts (derived : List Lexeme → Prop) (ls : List Lexeme) : Prop :=
  ∃ more, (∀ l ∈ more, l ∈ fillers) ∧ derived (ls ++ more)

/-- The lexemes of a nonterminal. -/
def Derives (n : Nonterminal) (ls : List Lexeme) : Prop := ∃ d : Derivation n, d.lexemes = ls

variable {derived derived' : List Lexeme → Prop} {ls : List Lexeme} {n : Nonterminal}

theorem starts_of (h : derived ls) : Starts derived ls :=
  ⟨[], fun _ hl => absurd hl List.not_mem_nil, by rwa [List.append_nil]⟩

/-- To complete what stands in something, and then what it stands in. -/
theorem Starts.inside (before after : List Lexeme) (h : Starts derived ls)
    (hafter : ∀ l ∈ after, l ∈ fillers)
    (himp : ∀ ls, derived ls → derived' (before ++ ls ++ after)) :
    Starts derived' (before ++ ls) := by
  obtain ⟨more, hmore, hd⟩ := h
  refine ⟨more ++ after, fun l hl => ?_, ?_⟩
  · rcases List.mem_append.1 hl with hl | hl
    · exact hmore l hl
    · exact hafter l hl
  · simpa only [List.append_assoc] using himp _ hd

theorem Starts.mono (h : Starts derived ls) (himp : ∀ ls, derived ls → derived' ls) :
    Starts derived' ls := by
  obtain ⟨more, hmore, hd⟩ := h
  exact ⟨more, hmore, himp _ hd⟩

/-- An expression can always be a word. -/
theorem starts_expression (himp : ∀ e : Derivation .expression, derived (ls ++ e.lexemes)) :
    Starts derived ls :=
  ⟨[.word "a"], by simp [fillers], himp (.ofWord "a")⟩

end Grammar

namespace Parser

open Grammar Derivation

variable {α β : Type} {x : Extent} {V U : List Lexeme → Prop} {input : List Located}

/-- Where an error points to: `used` has been taken, and `rest` is left. What `V` says is that
    the lexemes can be gone on with; where a condition is not a comparison, then they can if an
    expression stands in its place. -/
inductive Points (x : Extent) (V : List Lexeme → Prop) :
    SyntaxError → (used rest : List Located) → Prop
  | ended {used : List Located} (expected : Expectation) (h : V (lexemes used)) :
    Points x V ⟨.ended expected, ⟨x.stop, x.stop⟩⟩ used []
  | unexpected {used : List Located} (l : Located) (rest : List Located) (expected : Expectation)
    (h : V (lexemes used)) : Points x V ⟨.unexpected l.lexeme expected, l.span⟩ used (l :: rest)
  | condition (before : List Located) (first : Located) (others : List Located) (mark : Located)
    (rest : List Located) (hmark : mark.lexeme = .symbol .question)
    (hcondition : Derives (.chain .logical) (lexemes (first :: others)))
    (h : ∀ e : Derivation .expression, V (lexemes before ++ e.lexemes)) :
    Points x V ⟨.condition, first.span⟩ (before ++ first :: others) (mark :: rest)

theorem lexemes_append (input rest : List Located) :
    lexemes (input ++ rest) = lexemes input ++ lexemes rest := List.map_append

theorem Points.after {e : SyntaxError} {used rest : List Located} (before : List Located)
    (h : Points x V e used rest) (himp : ∀ ls, V ls → U (lexemes before ++ ls)) :
    Points x U e (before ++ used) rest := by
  cases h with
  | ended expected h => exact .ended expected (lexemes_append .. ▸ himp _ h)
  | unexpected l rest expected h => exact .unexpected l rest expected (lexemes_append .. ▸ himp _ h)
  | condition inner first others mark rest hmark hcondition h =>
    rw [← List.append_assoc]
    refine .condition (before ++ inner) first others mark rest hmark hcondition fun e => ?_
    rw [lexemes_append, List.append_assoc]
    exact himp _ (h e)

/-- What the parser does with the input: it takes some lexemes, or it fails at a lexeme or at
    the end, or it meets the nesting limit. Unless it does, all inputs with the same lexemes up
    to the one after those taken, or up to the one where it fails, are treated alike. -/
inductive Decided (x : Extent) (V : List Lexeme → Prop) (p : Parser α) (input : List Located) :
    Prop
  | ok (used : List Located) {rest : List Located} {a : α} (hinput : input = used ++ rest)
    (h : p input = .ok (a, rest))
    (hlocal : ∀ l tail, rest = l :: tail → ∀ tail', p (used ++ l :: tail') = .ok (a, l :: tail'))
  | malformed (used : List Located) {rest : List Located} {e : SyntaxError}
    (hinput : input = used ++ rest) (h : p input = .error (.malformed e))
    (hpoints : Points x V e used rest)
    (hlocal : ∀ l tail, rest = l :: tail →
      ∀ tail', p (used ++ l :: tail') = .error (.malformed e))
  | tooDeep (limit : Nat) (h : p input = .error (.tooDeep limit))

namespace Decided

/-- A parser that takes nothing, whatever comes. -/
theorem pure {p : Parser α} {a : α} (h : ∀ input, p input = .ok (a, input)) : Decided x V p input :=
  .ok [] rfl (h input) fun _ _ _ _ => h _

/-- A parser that takes nothing because of the next lexeme. -/
theorem stop {p : Parser α} {a : α} {l : Located} {tail : List Located}
    (h : ∀ tail, p (l :: tail) = .ok (a, l :: tail)) : Decided x V p (l :: tail) := by
  refine .ok [] rfl (h tail) ?_
  rintro _ _ ⟨⟩ tail'
  exact h tail'

theorem done {p : Parser α} {a : α} (h : p [] = .ok (a, [])) : Decided x V p [] :=
  .ok [] rfl h fun _ _ hrest => by cases hrest

theorem ended {p : Parser α} (expected : Expectation) (h : p [] = .error (Parser.ended x expected))
    (hV : V []) : Decided x V p [] :=
  .malformed [] rfl h (.ended expected hV) fun _ _ hrest => by cases hrest

theorem unexpected {p : Parser α} (expected : Expectation) {l : Located} {tail : List Located}
    (h : ∀ tail, p (l :: tail) = .error (Parser.unexpected l expected)) (hV : V []) :
    Decided x V p (l :: tail) := by
  refine .malformed [] rfl (h tail) (.unexpected l tail expected hV) ?_
  rintro _ _ ⟨⟩ tail'
  exact h tail'

/-- A parser that takes some lexemes and then does what another one does. -/
theorem skip {p q : Parser α} (before : List Located) {rest : List Located}
    (h : Decided x (fun ls => V (lexemes before ++ ls)) q rest)
    (hp : p (before ++ rest) = q rest)
    (hlocal : ∀ l tail, rest = l :: tail → ∀ tail', p (before ++ l :: tail') = q (l :: tail')) :
    Decided x V p (before ++ rest) := by
  -- an input that starts as the rest does has the same next lexeme
  have hrest {used rest' : List Located} {l : Located} {tail : List Located}
      (hrest : rest = used ++ rest') (hrest' : rest' = l :: tail) (tail' : List Located) :
      p (before ++ used ++ l :: tail') = q (used ++ l :: tail') := by
    rw [List.append_assoc]
    cases used with
    | nil => exact hlocal l tail (hrest.trans hrest') tail'
    | cons u used => exact hlocal u (used ++ rest') hrest (used ++ l :: tail')
  cases h with
  | ok used hinput h hl =>
    refine .ok (before ++ used) (by rw [List.append_assoc, ← hinput]) (hp.trans h) ?_
    intro l tail htail tail'
    rw [hrest hinput htail, hl l tail htail]
  | malformed used hinput h hpoints hl =>
    refine .malformed (before ++ used) (by rw [List.append_assoc, ← hinput]) (hp.trans h)
      (hpoints.after before fun _ hls => hls) ?_
    intro l tail htail tail'
    rw [hrest hinput htail, hl l tail htail]
  | tooDeep limit h => exact .tooDeep limit (hp.trans h)

/-- A parser that takes the next lexeme and then does what another one does. -/
theorem cons {p q : Parser α} {l : Located} {rest : List Located}
    (h : Decided x (fun ls => V (l.lexeme :: ls)) q rest) (hp : ∀ tail, p (l :: tail) = q tail) :
    Decided x V p (l :: rest) :=
  skip [l] h (hp rest) fun _ _ _ _ => hp _

theorem imp {p : Parser α} (h : Decided x V p input) (himp : ∀ ls, V ls → U ls) :
    Decided x U p input := by
  cases h with
  | ok used hinput h hl => exact .ok used hinput h hl
  | malformed used hinput h hpoints hl => exact .malformed used hinput h (hpoints.after [] himp) hl
  | tooDeep limit h => exact .tooDeep limit h

/-- One parser after the other. The second one may depend on the first lexeme of all. -/
theorem bind {p : Parser α} {q : Parser β} {k : α → Parser β} (h : Decided x V p input)
    (hq : ∀ input', input'.head? = input.head? → q input' = p input' >>= fun r => k r.1 r.2)
    (hV : ∀ ls, V ls → U ls)
    (hk : ∀ a used rest, input = used ++ rest → p input = .ok (a, rest) →
      Decided x (fun ls => U (lexemes used ++ ls)) (k a) rest) : Decided x U q input := by
  have head {used rest : List Located} {l : Located} {tail : List Located}
      (hinput : input = used ++ rest) (hrest : rest = l :: tail) (tail' : List Located) :
      (used ++ l :: tail').head? = input.head? := by
    rw [hinput, hrest]
    cases used <;> rfl
  cases h with
  | tooDeep limit h => exact .tooDeep limit (by rw [hq input rfl, h]; rfl)
  | malformed used hinput h hpoints hlocal =>
    refine .malformed used hinput (by rw [hq input rfl, h]; rfl) (hpoints.after [] hV) ?_
    intro l tail hrest tail'
    rw [hq _ (head hinput hrest tail'), hlocal l tail hrest]
    rfl
  | @ok used rest a hinput h hlocal =>
    have hstep : q input = k a rest := by rw [hq input rfl, h]; rfl
    -- the first parser does the same if the second one is given the same next lexeme
    have hsame (l : Located) (tail : List Located) (hrest : rest = l :: tail)
        (tail' : List Located) : q (used ++ l :: tail') = k a (l :: tail') := by
      rw [hq _ (head hinput hrest tail'), hlocal l tail hrest]
      rfl
    rw [hinput] at hstep ⊢
    exact skip used (hk a used rest hinput h) hstep hsame

/-- What is parsed does not matter. -/
theorem map {p : Parser α} (f : α → β) (h : Decided x V p input) :
    Decided x V (fun input => p input >>= fun r => .ok (f r.1, r.2)) input :=
  h.bind (k := fun a rest => .ok (f a, rest)) (fun _ _ => rfl) (fun _ => id) fun _ _ _ _ _ =>
    .pure fun _ => rfl

/-- A parser that starts as another one does. -/
theorem congr {p q : Parser α} (h : Decided x V p input)
    (hq : ∀ input', input'.head? = input.head? → q input' = p input') : Decided x V q input := by
  refine skip [] h (hq input rfl) ?_
  rintro l tail rfl tail'
  exact hq _ rfl

end Decided

theorem decided_expect (s : Symbol) (scope : Scope) (hV : V []) (input : List Located) :
    Decided x V (expect x s scope) input := by
  cases input with
  | nil => exact .ended _ rfl hV
  | cons l rest =>
    by_cases hs : l.lexeme = .symbol s
    · refine .cons (q := fun rest => .ok ((), rest)) (.pure fun _ => rfl) fun tail => ?_
      rw [expect, if_pos hs]
    · exact .unexpected _ (fun tail => by rw [expect, if_neg hs]) hV

/-! ## Operands -/

theorem decided_accesses (object : Expr)
    (hV : ∀ names, V (Derivation.accesses names ++ [.symbol .dot])) (input : List Located) :
    Decided x V (accesses x object) input := by
  -- a point has to be followed by a name
  have dot {object : Expr} {l : Located} {rest : List Located} {V : List Lexeme → Prop}
      (hdot : l.lexeme = .symbol .dot)
      (h : Decided x (fun ls => V (.symbol .dot :: ls)) (fun tail => accesses x object (l :: tail))
        rest) :
      Decided x V (accesses x object) (l :: rest) :=
    .cons (hdot ▸ h) fun _ => rfl
  have stop {object : Expr} {l : Located} {rest : List Located} {V : List Lexeme → Prop}
      (hdot : l.lexeme ≠ .symbol .dot) : Decided x V (accesses x object) (l :: rest) :=
    .stop fun tail => by cases tail <;> exact if_neg hdot
  fun_induction accesses x object input generalizing V with
  | case1 object => exact .done rfl
  | case2 object l hdot => exact dot hdot (.ended _ (if_pos hdot) (hV []))
  | case3 object l hdot => exact stop hdot
  | case4 object l name rest hdot text hname ih =>
    refine dot hdot (.cons (q := accesses x (.component object (.ofName text))) ?_ fun tail => ?_)
    · rw [hname]
      exact ih fun names => hV (text :: names)
    · rw [accesses, if_pos hdot, hname]
  | case5 object l name rest hdot hname =>
    refine dot hdot (.unexpected .componentName (fun tail => ?_) (hV []))
    rw [accesses, if_pos hdot]
    split
    · next text htext => exact absurd htext (hname text)
    · rfl
  | case6 object l name rest hdot => exact stop hdot

/-- What a sound parser of operands leaves is less than it was given. -/
theorem Sound.length_lt {p : Parser Expr} {n : Nonterminal} (h : Sound p n)
    (hn : n.isOperand = true) {input rest : List Located} {e : Expr}
    (he : p input = .ok (e, rest)) : rest.length < input.length := by
  obtain ⟨d, hd, -⟩ := h he
  obtain ⟨l, ls, hl, -⟩ := d.exists_cons hn
  have hlength := congrArg List.length hd
  rw [hl, List.length_append, List.length_cons, length_lexemes, length_lexemes] at hlength
  omega

/-- The lexemes that a sound parser takes. -/
theorem Sound.exists_used {p : Parser Expr} {n : Nonterminal} (h : Sound p n)
    {input used rest : List Located} {e : Expr} (hinput : input = used ++ rest)
    (he : p input = .ok (e, rest)) : ∃ d : Derivation n, lexemes used = d.lexemes := by
  obtain ⟨d, hd, -⟩ := h he
  rw [hinput, lexemes_append] at hd
  exact ⟨d, List.append_cancel_right hd⟩

section Items

variable {close : Symbol} {scope : Scope} {nested : Parser Expr}

/-- More fuel than lexemes makes no difference. -/
theorem items_fuel (hn : Sound nested .expression) {fuel fuel' : Nat} {input : List Located}
    (h : input.length ≤ fuel) (h' : input.length ≤ fuel') (hpos : 0 < fuel) (hpos' : 0 < fuel') :
    items x close scope nested fuel input = items x close scope nested fuel' input := by
  induction fuel generalizing fuel' input with
  | zero => exact absurd hpos (Nat.lt_irrefl 0)
  | succ fuel ih =>
    obtain _ | fuel' := fuel'
    · exact absurd hpos' (Nat.lt_irrefl 0)
    rw [items, items]
    cases hi : nested input with
    | error e => rfl
    | ok r =>
      obtain ⟨item, rest⟩ := r
      have hlt := hn.length_lt rfl hi
      rcases rest with _ | ⟨l, rest⟩
      · rfl
      · rw [List.length_cons] at hlt
        have hrest : items x close scope nested fuel rest = items x close scope nested fuel' rest :=
          ih (by omega) (by omega) (by omega) (by omega)
        cases rest <;> simp only [bind, Except.bind, hrest]

variable (x close scope nested) in
/-- Items, with fuel for all of them. -/
def allItems : Parser (List Expr) :=
  fun input => items x close scope nested (input.length + 1) input

variable (x close scope nested) in
/-- What follows an item and a comma. -/
def afterComma (item : Expr) : Parser (List Expr)
  | [] => allItems x close scope nested [] >>= fun r => .ok (item :: r.1, r.2)
  | next :: rest =>
    if next.lexeme = .symbol close then .error (unexpected next .item)
    else allItems x close scope nested (next :: rest) >>= fun r => .ok (item :: r.1, r.2)

variable (x close scope nested) in
/-- What follows an item. -/
def afterItem (item : Expr) : Parser (List Expr)
  | [] => .error (ended x (.separator scope close))
  | l :: rest =>
    if l.lexeme = .symbol .comma then afterComma x close scope nested item rest
    else if l.lexeme = .symbol close then .ok ([item], rest)
    else .error (unexpected l (.separator scope close))

theorem allItems_eq (hn : Sound nested .expression) (input : List Located) :
    allItems x close scope nested input =
      nested input >>= fun r => afterItem x close scope nested r.1 r.2 := by
  rw [allItems, items]
  cases hi : nested input with
  | error e => rfl
  | ok r =>
    obtain ⟨item, rest⟩ := r
    have hlt := hn.length_lt rfl hi
    rcases rest with _ | ⟨l, rest⟩
    · rfl
    · rw [List.length_cons] at hlt
      have hrest : items x close scope nested input.length rest =
          allItems x close scope nested rest :=
        items_fuel hn (by omega) (by omega) (by omega) (by omega)
      cases rest <;> simp only [bind, Except.bind, hrest, afterItem, afterComma]

/-- One or more expressions with commas between them. -/
def IsItems (ls : List Lexeme) : Prop :=
  ∃ (first : Derivation .expression) (more : Derivation .further),
    first.lexemes ++ more.lexemes = ls

theorem isItems_expression (e : Derivation .expression) : IsItems e.lexemes :=
  ⟨e, .noFurther, List.append_nil _⟩

theorem IsItems.cons (e : Derivation .expression) {ls : List Lexeme} (h : IsItems ls) :
    IsItems (e.lexemes ++ .symbol .comma :: ls) := by
  obtain ⟨first, more, rfl⟩ := h
  exact ⟨e, .further first more, rfl⟩

theorem decided_afterComma (item : Expr) {rest : List Located} (hV : V [])
    (h : Decided x V (allItems x close scope nested) rest) :
    Decided x V (afterComma x close scope nested item) rest := by
  rcases rest with _ | ⟨next, rest⟩
  · refine (h.map (item :: ·)).congr fun input' h' => ?_
    rw [List.head?_eq_none_iff.1 h', afterComma]
  · by_cases hclose : next.lexeme = .symbol close
    · exact .unexpected .item (fun tail => if_pos hclose) hV
    · refine (h.map (item :: ·)).congr fun input' h' => ?_
      obtain ⟨tail, rfl⟩ := List.head?_eq_some_iff.1 h'
      exact if_neg hclose

theorem decided_afterItem (item : Expr) {rest : List Located} (hV : V [])
    (h : Decided x (fun ls => V (.symbol .comma :: ls)) (afterComma x close scope nested item)
      rest.tail) : Decided x V (afterItem x close scope nested item) rest := by
  rcases rest with _ | ⟨l, rest⟩
  · exact .ended _ rfl hV
  · by_cases hcomma : l.lexeme = .symbol .comma
    · exact .cons (hcomma ▸ h) fun tail => if_pos hcomma
    · by_cases hclose : l.lexeme = .symbol close
      · refine .cons (q := fun rest => .ok ([item], rest)) (.pure fun _ => rfl) fun tail => ?_
        rw [afterItem, if_neg hcomma, if_pos hclose]
      · refine .unexpected (.separator scope close) (fun tail => ?_) hV
        rw [afterItem, if_neg hcomma, if_neg hclose]

theorem decided_items (hn : Sound nested .expression)
    (h : ∀ input, Decided x (Starts (Derives .expression)) nested input)
    (hV : ∀ ls, Starts IsItems ls → V ls) (input : List Located) :
    Decided x V (allItems x close scope nested) input := by
  induction hlen : input.length using Nat.strongRecOn generalizing input V with
  | ind n ih =>
    subst hlen
    refine (h input).bind (fun _ _ => allItems_eq hn _) (fun ls hls => hV ls ?_)
      fun item used rest hinput hitem => ?_
    · refine hls.mono ?_
      rintro _ ⟨d, rfl⟩
      exact isItems_expression d
    · obtain ⟨d, hd⟩ := hn.exists_used hinput hitem
      have hlt := hn.length_lt rfl hitem
      simp only [hd]
      have hmore : ∀ ls, Starts IsItems ls → V (d.lexemes ++ .symbol .comma :: ls) := by
        refine fun ls hls => hV _ ?_
        rw [List.append_cons]
        refine hls.inside _ [] (by simp) fun ls hls => ?_
        simpa using hls.cons d
      have hrest := ih rest.tail.length (by rw [List.length_tail]; omega) hmore rest.tail rfl
      refine decided_afterItem item ?_ (decided_afterComma item ?_ hrest)
      · rw [List.append_nil]
        exact hV _ (starts_of (isItems_expression d))
      · exact hmore [] (starts_expression isItems_expression)

theorem decided_arguments (hn : Sound nested .expression)
    (h : ∀ input, Decided x (Starts (Derives .expression)) nested input)
    (hV : ∀ ls, Starts (Derives .arguments) ls → V ls) (input : List Located) :
    Decided x V (arguments x close scope nested) input := by
  have hitems : Decided x V (allItems x close scope nested) input := by
    refine decided_items hn h (fun ls hls => hV ls (hls.mono ?_)) input
    rintro _ ⟨first, more, rfl⟩
    exact ⟨.argument first more, rfl⟩
  rcases input with _ | ⟨l, rest⟩
  · refine hitems.congr fun input' h' => ?_
    rw [List.head?_eq_none_iff.1 h', arguments]
    rfl
  · by_cases hclose : l.lexeme = .symbol close
    · exact .cons (q := fun rest => .ok ([], rest)) (.pure fun _ => rfl) fun tail => if_pos hclose
    · refine hitems.congr fun input' h' => ?_
      obtain ⟨tail, rfl⟩ := List.head?_eq_some_iff.1 h'
      rw [arguments, if_neg hclose]
      exact items_fuel hn (by simp) (by simp) (by simp) (by simp)

/-- Arguments up to a closing lexeme, with the opening lexemes before them. -/
theorem decided_enclosed (hn : Sound nested .expression)
    (h : ∀ input, Decided x (Starts (Derives .expression)) nested input) (before : List Lexeme)
    (close : Symbol) (scope : Scope) (f : List Expr → Expr) (hclose : .symbol close ∈ fillers)
    (hatom : ∀ d : Derivation .arguments, Derives .atom (before ++ d.lexemes ++ [.symbol close]))
    (input : List Located) :
    Decided x (fun ls => Starts (Derives .atom) (before ++ ls))
      (fun rest => arguments x close scope nested rest >>= fun r => .ok (f r.1, r.2)) input := by
  refine (decided_arguments hn h (fun ls hls => ?_) input).map f
  refine hls.inside before [.symbol close] (by simpa using hclose) ?_
  rintro _ ⟨d, rfl⟩
  exact hatom d

/-- An expression and a closing parenthesis, after the opening one. -/
theorem decided_group (hn : Sound nested .expression)
    (h : ∀ input, Decided x (Starts (Derives .expression)) nested input) (input : List Located) :
    Decided x (fun ls => Starts (Derives .atom) (.symbol .openParen :: ls))
      (fun rest => nested rest >>= fun r =>
        expect x .closeParen .group r.2 >>= fun r' => .ok (Expr.group r.1, r'.2)) input := by
  have hgroup : ∀ ls, Starts (Derives .expression) ls →
      Starts (Derives .atom) (.symbol .openParen :: ls) := by
    intro ls hls
    refine hls.inside [.symbol .openParen] [.symbol .closeParen] (by simp [fillers]) ?_
    rintro _ ⟨d, rfl⟩
    exact ⟨.group d, rfl⟩
  refine (h input).bind (k := fun inner rest => expect x .closeParen .group rest >>= fun r' =>
    .ok (Expr.group inner, r'.2)) (fun _ _ => rfl) hgroup fun inner used rest hinput hinner => ?_
  obtain ⟨d, hd⟩ := hn.exists_used hinput hinner
  refine (decided_expect .closeParen .group ?_ rest).map fun _ => Expr.group inner
  rw [hd, List.append_nil]
  exact hgroup _ (starts_of ⟨d, rfl⟩)

theorem decided_atom (hn : Sound nested .expression)
    (h : ∀ input, Decided x (Starts (Derives .expression)) nested input) (input : List Located) :
    Decided x (Starts (Derives .atom)) (atom x nested) input := by
  have hempty : Starts (Derives .atom) [] := ⟨[.word "a"], by simp [fillers], .word "a", rfl⟩
  rcases input with _ | ⟨l, rest⟩
  · exact .ended _ rfl hempty
  · cases hl : l.lexeme with
    | number text =>
      refine .cons (q := fun rest => .ok (.number text, rest)) (.pure fun _ => rfl) fun tail => ?_
      rw [atom, hl]
    | word text =>
      -- the next lexeme tells a call from a name
      refine .cons (q := fun rest => atom x nested (l :: rest)) ?_ fun _ => rfl
      rcases rest with _ | ⟨next, inner⟩
      · exact .done (by rw [atom, hl])
      · by_cases hopen : next.lexeme = .symbol .openParen
        · have hcall := decided_enclosed hn h [.word text, .symbol .openParen] .closeParen
            .arguments (.call text) (by simp [fillers]) (fun d => ⟨.call text d, rfl⟩) inner
          refine .cons (hl ▸ hopen ▸ hcall) fun tail => ?_
          rw [atom, hl]
          exact if_pos hopen
        · exact .stop (a := ofWord text) fun tail => by rw [atom, hl]; exact if_neg hopen
    | symbol s =>
      by_cases hbracket : s = .openBracket
      · subst hbracket
        have hlist := decided_enclosed hn h [.symbol .openBracket] .closeBracket .listLiteral .list
          (by simp [fillers]) (fun d => ⟨.list d, rfl⟩) rest
        refine .cons (hl ▸ hlist) fun tail => ?_
        rw [atom, hl]
      · by_cases hparen : s = .openParen
        · subst hparen
          refine .cons (hl ▸ decided_group hn h rest) fun tail => ?_
          rw [atom, hl]
        · refine .unexpected .operand (fun tail => ?_) hempty
          rw [atom, hl]
          cases s <;> first | contradiction | rfl

/-- The operators in front of an operand end where no other one follows. -/
theorem exists_prefixes (input : List Located) :
    ∃ before, input = before ++ (prefixes input).2 ∧ lexemes before = signs (prefixes input).1 ∧
      ∀ l tail, (prefixes input).2 = l :: tail →
        ∀ tail', prefixes (before ++ l :: tail') = ((prefixes input).1, l :: tail') := by
  induction input with
  | nil => exact ⟨[], rfl, rfl, fun _ _ h => by cases h⟩
  | cons l rest ih =>
    obtain ⟨before, hrest, hlexemes, hlocal⟩ := ih
    rw [prefixes]
    cases hop : unary? l.lexeme with
    | none =>
      refine ⟨[], rfl, rfl, ?_⟩
      rintro _ _ ⟨⟩ tail'
      rw [List.nil_append, prefixes, hop]
    | some op =>
      refine ⟨l :: before, by rw [List.cons_append, ← hrest], ?_, fun m tail hm tail' => ?_⟩
      · rw [lexemes_cons, hlexemes, (unary?_eq_some_iff _ _).1 hop]
        rfl
      · rw [List.cons_append, prefixes, hop, hlocal m tail hm tail']

theorem decided_unary (hn : Sound nested .expression)
    (h : ∀ input, Decided x (Starts (Derives .expression)) nested input) (input : List Located) :
    Decided x (Starts (Derives .unary)) (unary x nested) input := by
  obtain ⟨before, hinput, hsigns, hlocal⟩ := exists_prefixes input
  generalize hops : (prefixes input).1 = ops at hsigns hlocal
  generalize hrest : (prefixes input).2 = rest at hinput hlocal
  have hprefixes : prefixes input = (ops, rest) := Prod.ext hops hrest
  by_cases hlimit : x.limit < ops.length
  · refine .tooDeep x.limit ?_
    simp only [unary, hprefixes, if_pos hlimit, tooDeep]
  -- the operators are followed by an operand
  let operand : Parser Expr := fun rest => atom x nested rest >>= fun r =>
    accesses x r.1 r.2 >>= fun r' => .ok (ops.foldr .unary r'.1, r'.2)
  have hunary {input rest : List Located} (h : prefixes input = (ops, rest)) :
      unary x nested input = operand rest := by
    simp only [unary, h, if_neg hlimit]
    rfl
  have hoperand :
      Decided x (fun ls => Starts (Derives .unary) (lexemes before ++ ls)) operand rest := by
    rw [hsigns]
    refine (decided_atom hn h rest).bind
      (k := fun object rest => accesses x object rest >>= fun r' =>
        .ok (ops.foldr .unary r'.1, r'.2)) (fun _ _ => rfl) (fun ls hls => ?_)
      fun object used after hafter hobject => ?_
    · refine hls.inside _ [] (by simp) ?_
      rintro _ ⟨d, rfl⟩
      exact ⟨.unary ops d [], by simp [Derivation.accesses]⟩
    · obtain ⟨d, hd⟩ := (sound_atom hn).exists_used hafter hobject
      refine (decided_accesses object (fun names => ?_) after).map (ops.foldr .unary)
      refine ⟨[.word "a"], by simp [fillers], .unary ops d (names ++ ["a"]), ?_⟩
      simp [hd, Derivation.accesses]
  rw [hinput] at hprefixes ⊢
  refine hoperand.skip before (hunary hprefixes) fun l tail htail tail' => ?_
  exact hunary (hlocal l tail htail tail')

/-- What follows the base of a power, if there is one. -/
def afterBase (right : Parser Expr) (lhs : Expr) : Parser Expr := fun rest =>
  match rest with
  | l :: inner =>
    if l.lexeme = .symbol .caret then right inner >>= fun r => .ok (.binary .power lhs r.1, r.2)
    else .ok (lhs, rest)
  | [] => .ok (lhs, [])

theorem decided_powers {base right : Parser Expr} (hb : Sound base .unary)
    (hbase : ∀ input, Decided x (Starts (Derives .unary)) base input)
    (hright : ∀ input, Decided x (Starts (Derives .exponent)) right input) (input : List Located) :
    Decided x (Starts (Derives .exponent)) (powers base right) input := by
  refine (hbase input).bind (k := afterBase right) (fun _ _ => rfl) (fun ls hls => hls.mono ?_)
    fun lhs used rest hinput hlhs => ?_
  · rintro _ ⟨d, rfl⟩
    exact ⟨.base d, rfl⟩
  · rcases rest with _ | ⟨l, inner⟩
    · exact .done rfl
    · by_cases hcaret : l.lexeme = .symbol .caret
      · obtain ⟨d, hd⟩ := hb.exists_used hinput hlhs
        refine .cons (((hright inner).imp fun ls hls => ?_).map (.binary .power lhs)) fun tail => by
          rw [afterBase, if_pos hcaret]
        rw [hd, hcaret, List.append_cons]
        refine hls.inside _ [] (by simp) ?_
        rintro _ ⟨d', rfl⟩
        exact ⟨.power d d', by simp⟩
      · exact .stop (a := lhs) fun tail => if_neg hcaret

end Items

/-! ## Levels of operators -/

section Levels

variable {t : Tier} {operand : Parser Expr}

/-- More fuel than lexemes makes no difference. -/
theorem chain_fuel (ho : Sound operand t.operand) {fuel fuel' : Nat} (lhs : Expr)
    {input : List Located} (h : input.length ≤ fuel) (h' : input.length ≤ fuel') :
    chain t.operator? operand fuel lhs input = chain t.operator? operand fuel' lhs input := by
  induction fuel generalizing fuel' lhs input with
  | zero =>
    obtain rfl := List.length_eq_zero_iff.1 (Nat.le_zero.1 h)
    cases fuel' <;> rfl
  | succ fuel ih =>
    rcases input with _ | ⟨l, rest⟩
    · cases fuel' <;> rfl
    · obtain _ | fuel' := fuel'
      · exact absurd h' (Nat.not_succ_le_zero _)
      rw [List.length_cons] at h h'
      rw [chain, chain]
      cases t.operator? l.lexeme with
      | none => rfl
      | some op =>
        cases hr : operand rest with
        | error e => rfl
        | ok r =>
          have hlt := ho.length_lt (isOperand_operand t) hr
          exact ih _ (by omega) (by omega)

variable (t operand) in
/-- What follows `lhs` on a level, with fuel for all of it. -/
def allLinks (lhs : Expr) : Parser Expr := fun input =>
  chain t.operator? operand input.length lhs input

theorem allLinks_cons (ho : Sound operand t.operand) (lhs : Expr) (l : Located)
    (rest : List Located) :
    allLinks t operand lhs (l :: rest) =
      match t.operator? l.lexeme with
      | some op => operand rest >>= fun r => allLinks t operand (.binary op lhs r.1) r.2
      | none => .ok (lhs, l :: rest) := by
  rw [allLinks, List.length_cons, chain]
  cases t.operator? l.lexeme with
  | none => rfl
  | some op =>
    cases hr : operand rest with
    | error e => rfl
    | ok r =>
      have hlt := ho.length_lt (isOperand_operand t) hr
      exact chain_fuel ho _ (by omega) (Nat.le_refl _)

theorem decided_links (ho : Sound operand t.operand)
    (h : ∀ input, Decided x (Starts (Derives t.operand)) operand input)
    (hV : ∀ ls, Starts (Derives (.links t)) ls → V ls) (lhs : Expr) (input : List Located) :
    Decided x V (allLinks t operand lhs) input := by
  induction hlen : input.length using Nat.strongRecOn generalizing lhs input V with
  | ind n ih =>
    subst hlen
    rcases input with _ | ⟨l, rest⟩
    · exact .done rfl
    · cases hop : t.operator? l.lexeme with
      | none => exact .stop (a := lhs) fun tail => by rw [allLinks_cons ho, hop]
      | some op =>
        obtain ⟨hsign, htier⟩ := (operator?_eq_some_iff _ _ _).1 hop
        refine .cons (q := fun rest => operand rest >>= fun r =>
          allLinks t operand (.binary op lhs r.1) r.2) ?_ fun tail => by rw [allLinks_cons ho, hop]
        rw [hsign]
        refine (h rest).bind (k := fun rhs => allLinks t operand (.binary op lhs rhs))
          (fun _ _ => rfl) (fun ls hls => hV _ ?_) fun rhs used after hrest hrhs => ?_
        · refine hls.inside [.symbol op.sign] [] (by simp) ?_
          rintro _ ⟨d, rfl⟩
          exact ⟨.link op htier d .noLink, by simp⟩
        · obtain ⟨d, hd⟩ := ho.exists_used hrest hrhs
          have hlt := ho.length_lt (isOperand_operand t) hrhs
          refine ih after.length (Nat.lt_succ_of_lt hlt) (fun ls hls => hV _ ?_) _ after rfl
          rw [hd]
          refine hls.inside (.symbol op.sign :: d.lexemes) [] (by simp) ?_
          rintro _ ⟨links, rfl⟩
          exact ⟨.link op htier d links, by simp⟩

theorem decided_leftward (ho : Sound operand t.operand)
    (h : ∀ input, Decided x (Starts (Derives t.operand)) operand input) (input : List Located) :
    Decided x (Starts (Derives (.chain t))) (leftward t.operator? operand) input := by
  refine (h input).bind (k := allLinks t operand) (fun _ _ => rfl) (fun ls hls => hls.mono ?_)
    fun lhs used rest hinput hlhs => ?_
  · rintro _ ⟨d, rfl⟩
    exact ⟨.chain d .noLink, by simp⟩
  · obtain ⟨d, hd⟩ := ho.exists_used hinput hlhs
    refine decided_links ho h (fun ls hls => ?_) lhs rest
    rw [hd]
    refine hls.inside _ [] (by simp) ?_
    rintro _ ⟨links, rfl⟩
    exact ⟨.chain d links, by simp⟩

end Levels

section Expressions

variable {exponent nested : Parser Expr}

theorem decided_logical (he : Sound exponent .exponent)
    (h : ∀ input, Decided x (Starts (Derives .exponent)) exponent input) (input : List Located) :
    Decided x (Starts (Derives (.chain .logical))) (logical exponent) input :=
  have hm := sound_leftward (t := .multiplicative) he
  have ha := sound_leftward (t := .additive) hm
  decided_leftward (t := .logical) ha
    (decided_leftward (t := .additive) hm (decided_leftward (t := .multiplicative) he h)) input

/-- What follows the first operand of a comparison, if there is one. -/
def afterOperand (operand : Parser Expr) (lhs : Expr) : Parser Head := fun rest =>
  match rest with
  | [] => .ok (.plain lhs, [])
  | l :: inner =>
    match comparison? l.lexeme with
    | some test => operand inner >>= fun r => .ok (.compared test lhs r.1, r.2)
    | none => .ok (.plain lhs, rest)

theorem decided_head {operand : Parser Expr} (ho : Sound operand (.chain .logical))
    (h : ∀ input, Decided x (Starts (Derives (.chain .logical))) operand input)
    (input : List Located) :
    Decided x (Starts (Derives .comparison)) (head operand) input := by
  refine (h input).bind (k := afterOperand operand) (fun _ _ => rfl) (fun ls hls => hls.mono ?_)
    fun lhs used rest hinput hlhs => ?_
  · rintro _ ⟨d, rfl⟩
    exact ⟨.bare d, rfl⟩
  · rcases rest with _ | ⟨l, inner⟩
    · exact .done rfl
    · cases htest : comparison? l.lexeme with
      | none => exact .stop (a := .plain lhs) fun tail => by rw [afterOperand, htest]
      | some test =>
        obtain ⟨d, hd⟩ := ho.exists_used hinput hlhs
        refine .cons (((h inner).imp fun ls hls => ?_).map (.compared test lhs)) fun tail => by
          rw [afterOperand, htest]
        rw [hd, (comparison?_eq_some_iff _ _).1 htest, List.append_cons]
        refine hls.inside _ [] (by simp) ?_
        rintro _ ⟨d', rfl⟩
        exact ⟨.compared d test d', by simp⟩

variable (x nested) in
/-- What follows the start of an expression that starts at the place. -/
def afterHead (start : Span) : Head → Parser Expr
  | .compared test lhs rhs => fun rest =>
    if nextIs .question rest then
      nested rest.tail >>= fun ifTrue => expect x .colon .ternary ifTrue.2 >>= fun colon =>
        nested colon.2 >>= fun ifFalse => .ok (.ternary test lhs rhs ifTrue.1 ifFalse.1, ifFalse.2)
    else .ok (.compare test lhs rhs, rest)
  | .plain e => fun rest =>
    if nextIs .question rest then .error (.malformed ⟨.condition, start⟩) else .ok (e, rest)

theorem conditional_eq (input : List Located) :
    conditional x exponent nested input =
      head (logical exponent) input >>= fun r => afterHead x nested (place x input) r.1 r.2 := by
  rw [conditional]
  refine congrArg (head (logical exponent) input >>= ·) (funext fun r => ?_)
  obtain ⟨start, rest⟩ := r
  cases start <;> rfl

theorem place_eq {input input' : List Located} (h : input'.head? = input.head?) :
    place x input' = place x input := by
  cases input <;> cases input' <;> simp_all [place]

theorem lexemes_used_of_expect {s : Symbol} {scope : Scope} {input used rest : List Located}
    {u : Unit} (hinput : input = used ++ rest) (h : expect x s scope input = .ok (u, rest)) :
    lexemes used = [.symbol s] := by
  have hlexemes := lexemes_of_expect h
  rw [hinput, lexemes_append] at hlexemes
  exact List.append_cancel_right (hlexemes.trans (List.singleton_append).symm)

/-- The branches of a choice, after the question mark. -/
theorem decided_branches (hn : Sound nested .expression)
    (h : ∀ input, Decided x (Starts (Derives .expression)) nested input)
    (lhs : Derivation (.chain .logical)) (test : Comparison) (rhs : Derivation (.chain .logical))
    (f : Expr → Expr → Expr) (input : List Located) :
    Decided x (fun ls => Starts (Derives .expression)
        (lhs.lexemes ++ .symbol test.sign :: (rhs.lexemes ++ .symbol .question :: ls)))
      (fun rest => nested rest >>= fun ifTrue => expect x .colon .ternary ifTrue.2 >>= fun colon =>
        nested colon.2 >>= fun ifFalse => .ok (f ifTrue.1 ifFalse.1, ifFalse.2)) input := by
  let before := lhs.lexemes ++ .symbol test.sign :: (rhs.lexemes ++ [.symbol .question])
  have hbefore (ls : List Lexeme) :
      lhs.lexemes ++ .symbol test.sign :: (rhs.lexemes ++ .symbol .question :: ls) =
        before ++ ls := by
    simp [before]
  simp only [hbefore]
  -- the first branch, completed by a colon and a word
  have hfirst : ∀ ls, Starts (Derives .expression) ls →
      Starts (Derives .expression) (before ++ ls) := by
    intro ls hls
    refine hls.inside _ [.symbol .colon, .word "a"] (by simp [fillers]) ?_
    rintro _ ⟨d, rfl⟩
    exact ⟨.ternary lhs test rhs d (.ofWord "a"), by simp [before, lexemes_ofWord]⟩
  refine (h input).bind (k := fun ifTrue rest => expect x .colon .ternary rest >>= fun colon =>
    nested colon.2 >>= fun ifFalse => .ok (f ifTrue ifFalse.1, ifFalse.2)) (fun _ _ => rfl) hfirst
    fun ifTrue used rest hinput hifTrue => ?_
  obtain ⟨d, hd⟩ := hn.exists_used hinput hifTrue
  rw [hd]
  refine (decided_expect .colon .ternary ?_ rest).bind
    (k := fun _ rest => nested rest >>= fun ifFalse =>
      .ok (f ifTrue ifFalse.1, ifFalse.2)) (fun _ _ => rfl) (fun _ => id)
    fun _ used' rest' hinput' hcolon => ?_
  · rw [List.append_nil]
    exact hfirst _ (starts_of ⟨d, rfl⟩)
  · rw [lexemes_used_of_expect hinput' hcolon]
    refine ((h rest').imp fun ls hls => ?_).map (f ifTrue)
    have hbranches : before ++ (d.lexemes ++ ([.symbol .colon] ++ ls)) =
        before ++ d.lexemes ++ [.symbol .colon] ++ ls := by simp
    rw [hbranches]
    refine hls.inside _ [] (by simp) ?_
    rintro _ ⟨d', rfl⟩
    exact ⟨.ternary lhs test rhs d d', by simp [before]⟩

/-- What stands before a question mark and is not a comparison. -/
theorem decided_condition (he : Sound exponent .exponent)
    (h : ∀ input, Decided x (Starts (Derives .exponent)) exponent input) {input tail : List Located}
    {e : Expr} {mark : Located} (hmark : mark.lexeme = .symbol .question)
    (hhead : head (logical exponent) input = .ok (.plain e, mark :: tail)) :
    Decided x (Starts (Derives .expression)) (conditional x exponent nested) input := by
  have hfails {input rest : List Located}
      (hhead : head (logical exponent) input = .ok (.plain e, mark :: rest)) :
      conditional x exponent nested input = .error (.malformed ⟨.condition, place x input⟩) := by
    rw [conditional_eq, hhead]
    exact if_pos (by simp [nextIs, hmark])
  obtain ⟨d, hd, -⟩ := derives_head (sound_logical he) hhead
  cases decided_head (sound_logical he) (decided_logical he h) input with
  | tooDeep limit h' =>
    rw [hhead] at h'
    cases h'
  | malformed used hinput h' =>
    rw [hhead] at h'
    cases h'
  | ok used hinput h' hlocal =>
    rw [hhead] at h'
    cases h'
    -- there is a first lexeme, at which the error is
    have hused : lexemes used = d.lexemes := by
      rw [hinput, lexemes_append] at hd
      exact List.append_cancel_right hd
    obtain ⟨l, ls, hl, -⟩ := d.exists_cons rfl
    obtain ⟨first, others, rfl, -, -⟩ := exists_of_lexemes_eq_cons (hused.trans hl)
    have hplace : place x input = first.span := by rw [hinput]; rfl
    refine .malformed (first :: others) hinput (hplace ▸ hfails hhead)
      (.condition [] first others mark tail hmark ⟨d, hused.symm⟩ fun e =>
        starts_of ⟨e, rfl⟩) ?_
    rintro _ _ ⟨⟩ tail'
    exact hfails (hlocal mark tail rfl tail')

theorem decided_conditional (he : Sound exponent .exponent) (hn : Sound nested .expression)
    (hexponent : ∀ input, Decided x (Starts (Derives .exponent)) exponent input)
    (h : ∀ input, Decided x (Starts (Derives .expression)) nested input) (input : List Located) :
    Decided x (Starts (Derives .expression)) (conditional x exponent nested) input := by
  by_cases hcondition : ∃ e mark tail,
      head (logical exponent) input = .ok (.plain e, mark :: tail) ∧ mark.lexeme = .symbol .question
  · obtain ⟨e, mark, tail, hhead, hmark⟩ := hcondition
    exact decided_condition he hexponent hmark hhead
  refine (decided_head (sound_logical he) (decided_logical he hexponent) input).bind
    (k := afterHead x nested (place x input)) (fun input' h' => ?_) (fun ls hls => hls.mono ?_)
    fun start used rest hinput hstart => ?_
  · rw [conditional_eq, place_eq h']
  · rintro _ ⟨d, rfl⟩
    exact ⟨.plain d, rfl⟩
  · have hderives := derives_head (sound_logical he) hstart
    cases start with
    | plain e =>
      rcases rest with _ | ⟨l, tail⟩
      · exact .done rfl
      · have hl : l.lexeme ≠ .symbol .question := fun hl => hcondition ⟨e, l, tail, hstart, hl⟩
        exact .stop (a := e) fun tail => if_neg (by simpa [nextIs] using hl)
    | compared test lhs rhs =>
      rcases rest with _ | ⟨l, tail⟩
      · exact .done rfl
      · by_cases hl : l.lexeme = .symbol .question
        · obtain ⟨d, d', hd, -, -⟩ := hderives
          have hused : lexemes used = d.lexemes ++ .symbol test.sign :: d'.lexemes := by
            rw [hinput, lexemes_append, ← List.cons_append, ← List.append_assoc] at hd
            exact List.append_cancel_right hd
          have hbranches := decided_branches hn h d test d' (.ternary test lhs rhs) tail
          refine .cons (hbranches.imp fun ls hls => ?_) fun tail => if_pos (by simp [nextIs, hl])
          rw [hused, hl]
          simpa using hls
        · exact .stop (a := Expr.compare test lhs rhs) fun tail =>
            if_neg (by simpa [nextIs] using hl)

end Expressions

/-! ## Nesting -/

theorem decided_nesting (room : Nat) :
    (∀ input, Decided x (Starts (Derives .expression)) (expression x room) input) ∧
      ∀ input, Decided x (Starts (Derives .exponent)) (deeper x room) input := by
  induction room with
  | zero =>
    refine ⟨fun input => .tooDeep x.limit ?_, fun input => .tooDeep x.limit rfl⟩
    rw [expression]
    rfl
  | succ room ih =>
    have hs := sound_nesting (x := x) room
    have hexponent : ∀ input, Decided x (Starts (Derives .exponent)) (exponent x room) input := by
      rw [exponent_eq]
      exact decided_powers (sound_unary hs.1) (decided_unary hs.1 ih.1) ih.2
    rw [expression_succ]
    exact ⟨decided_conditional (sound_exponent room hs.1 hs.2) hs.1 hexponent ih.1, hexponent⟩

theorem decided_expression (x : Extent) (room : Nat) (input : List Located) :
    Decided x (Starts (Derives .expression)) (expression x room) input :=
  (decided_nesting room).1 input

end Parser

end RigExpr
