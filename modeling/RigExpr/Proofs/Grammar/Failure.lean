import RigExpr.Proofs.Grammar.Limit
import RigExpr.Proofs.Grammar.Lookahead
import RigExpr.Proofs.Lexeme.Blank

/-!
# Where syntax errors point to

A source that is not a statement fails at the first lexeme which cannot be gone on with. The
lexemes before it start some statement. Those up to it start none, with whatever limit: the
parser has decided about them, and a higher limit or other places make no difference to that.
If no lexeme is at fault, then the source has only ended too early.

* `Statement.exists_points`: what an error says about the lexemes of a source.
* `Statement.error_at_first_lexeme`: what it says about other sources.
-/

namespace RigExpr

namespace Statement

open Grammar RigExpr.Parser

variable {x x' : Extent} {input input' : List Located}

/-- The lexemes of a statement. -/
def IsSource (ls : List Lexeme) : Prop := ∃ d : Source, d.lexemes = ls

/-! ## One source -/

/-- The statement with this destination and expression, if nothing follows. -/
def closed (destination : Option String) (e : Expr) : Parser Statement
  | [] => .ok (⟨destination, e⟩, [])
  | l :: _ => .error (Parser.unexpected l .done)

/-- The statement with this destination. -/
def body (x : Extent) (destination : Option String) : Parser Statement := fun input =>
  Parser.expression x x.limit input >>= fun r => closed destination r.1 r.2

theorem decided_body (destination : Option String) {V : List Lexeme → Prop}
    (hV : ∀ ls, Starts (Derives .expression) ls → V ls) (input : List Located) :
    Decided x V (body x destination) input := by
  refine (decided_expression x x.limit input).bind (k := closed destination) (fun _ _ => rfl) hV
    fun e used rest hinput he => ?_
  rcases rest with _ | ⟨l, tail⟩
  · exact .done rfl
  · obtain ⟨d, hd⟩ := (sound_expression x x.limit).exists_used hinput he
    refine .unexpected .done (fun tail => rfl) ?_
    rw [hd, List.append_nil]
    exact hV _ (starts_of ⟨d, rfl⟩)

theorem ofLexemes_eq_body {destination : Option String} {inner : List Located}
    (h : destination? input = (destination, inner)) :
    ofLexemes x input = body x destination inner >>= fun r => .ok r.1 := by
  rw [ofLexemes, h, body]
  dsimp only
  cases Parser.expression x x.limit inner with
  | error e => rfl
  | ok r =>
    obtain ⟨e, rest⟩ := r
    cases rest <;> rfl

/-- A word can always be an expression, so nothing fails at it. -/
theorem lexeme_ne_word {l : Located} {destination : Option String} {e : SyntaxError}
    (h : body x destination [l] = .error (.malformed e)) (name : String) :
    l.lexeme ≠ .word name := by
  intro hl
  rw [body] at h
  cases hlimit : x.limit with
  | zero =>
    rw [hlimit, Parser.expression] at h
    cases h
  | succ room =>
    have hword : Parser.lexemes [l] = .word name :: joined [] := by rw [lexemes_cons, hl]; rfl
    obtain ⟨e', he', -⟩ :=
      expression_of_joined x room hword rfl fun _ h => absurd h List.not_mem_nil
    rw [hlimit, he'] at h
    cases h

/-- Whether there is a destination shows at the first two lexemes. -/
theorem destination?_append {used : List Located} {l : Located} {tail : List Located}
    (h : destination? (used ++ l :: tail) = (none, used ++ l :: tail))
    (hl : used = [] → ∀ name, l.lexeme ≠ .word name) (tail' : List Located) :
    destination? (used ++ l :: tail') = (none, used ++ l :: tail') := by
  have hnone {first second : Located} {rest rest' : List Located}
      (h : destination? (first :: second :: rest) = (none, first :: second :: rest)) :
      destination? (first :: second :: rest') = (none, first :: second :: rest') := by
    rw [destination?] at h ⊢
    split at h
    · cases h
    · rfl
  rcases used with _ | ⟨first, _ | ⟨second, used⟩⟩
  · rcases tail' with _ | ⟨second, tail'⟩
    · rfl
    · rw [List.nil_append, destination?]
      split
      · next name h₁ _ => exact absurd h₁ (hl rfl name)
      · rfl
  · exact hnone h
  · exact hnone h

/-- Where an error in a source points to: what has been taken starts a statement, and if there
    is a lexeme at fault, then the same error is there whatever follows it. -/
theorem exists_points {e : SyntaxError} (h : ofLexemes x input = .error (.malformed e)) :
    ∃ used rest, input = used ++ rest ∧ Points x (Starts IsSource) e used rest ∧
      ∀ l tail, rest = l :: tail →
        ∀ tail', ofLexemes x (used ++ l :: tail') = .error (.malformed e) := by
  have hbody {destination : Option String} {input inner : List Located}
      (hdest : destination? input = (destination, inner)) :
      ofLexemes x input = .error (.malformed e) ↔
        body x destination inner = .error (.malformed e) := by
    rw [ofLexemes_eq_body hdest]
    cases body x destination inner <;> simp [bind, Except.bind]
  rcases destination?_cases input with ⟨name, inner, -, hl⟩ | ⟨hdest, -⟩
  · obtain ⟨first, rest, rfl, hfirst, hrest⟩ := exists_of_lexemes_eq_cons hl
    obtain ⟨second, inner, rfl, hsecond, -⟩ := exists_of_lexemes_eq_cons hrest
    have hdest (tail : List Located) :
        destination? (first :: second :: tail) = (some name, tail) := by
      rw [destination?, hfirst, hsecond]
    rw [hbody (hdest inner)] at h
    have hV : ∀ ls, Starts (Derives .expression) ls →
        Starts IsSource (.word name :: .symbol .assign :: ls) := by
      intro ls hls
      refine hls.inside [.word name, .symbol .assign] [] (by simp) ?_
      rintro _ ⟨d, rfl⟩
      exact ⟨.assignment name d, by simp [Source.lexemes]⟩
    cases decided_body (x := x) (some name) hV inner with
    | ok used hinput h' => rw [h] at h'; cases h'
    | tooDeep limit h' => rw [h] at h'; cases h'
    | malformed used hinput h' hpoints hlocal =>
      rw [h] at h'
      cases h'
      refine ⟨first :: second :: used, _, by rw [hinput]; rfl,
        hpoints.after [first, second] fun ls hls => ?_, fun l tail hrest tail' => ?_⟩
      · rw [lexemes_cons, lexemes_cons, hfirst, hsecond]
        exact hls
      · exact (hbody (hdest _)).2 (hlocal l tail hrest tail')
  · rw [hbody hdest] at h
    have hV : ∀ ls, Starts (Derives .expression) ls → Starts IsSource ls := by
      refine fun ls hls => hls.mono ?_
      rintro _ ⟨d, rfl⟩
      exact ⟨.value d, rfl⟩
    cases decided_body (x := x) none hV input with
    | ok used hinput h' => rw [h] at h'; cases h'
    | tooDeep limit h' => rw [h] at h'; cases h'
    | malformed used hinput h' hpoints hlocal =>
      rw [h] at h'
      cases h'
      refine ⟨used, _, hinput, hpoints, fun l tail hrest tail' => ?_⟩
      rw [hinput, hrest] at hdest
      refine (hbody (destination?_append hdest (fun hused => ?_) tail')).2
        (hlocal l tail hrest tail')
      subst hused
      exact lexeme_ne_word (hlocal l tail hrest [])

/-! ## Other sources -/

theorem destination?_of_moved (h : Moved input input') :
    (destination? input).1 = (destination? input').1 ∧
      Moved (destination? input).2 (destination? input').2 := by
  cases h with
  | nil => exact ⟨rfl, .nil⟩
  | cons hl hrest =>
    cases hrest with
    | nil => exact ⟨rfl, .cons hl .nil⟩
    | cons hl' hrest =>
      rw [destination?, destination?, hl, hl']
      split
      · exact ⟨rfl, hrest⟩
      · exact ⟨rfl, .cons hl (.cons hl' hrest)⟩

/-- Wherever the lexemes stand, they are the same statement. -/
theorem ofLexemes_of_moved {s : Statement} (hx : x.limit = x'.limit) (hmoved : Moved input input')
    (h : ofLexemes x input = .ok s) : ofLexemes x' input' = .ok s := by
  have hdest := destination?_of_moved hmoved
  rw [ofLexemes] at h ⊢
  generalize destination? input = start at h hdest
  generalize destination? input' = start' at hdest ⊢
  obtain ⟨destination, inner⟩ := start
  obtain ⟨destination', inner'⟩ := start'
  obtain ⟨rfl, hinner⟩ : destination = destination' ∧ Moved inner inner' := hdest
  have hsame := (agree_expression hx x.limit).1 hinner
  rw [← hx]
  dsimp only at h ⊢
  generalize Parser.expression x x.limit inner = r at h hsame
  generalize Parser.expression x' x.limit inner' = r' at hsame ⊢
  cases hsame with
  | error e e' => cases h
  | ok e hrest =>
    cases hrest with
    | nil => exact h
    | cons => cases h

/-- No source that starts with the lexemes is accepted. -/
def IsDeadEnd (ls : List Lexeme) : Prop :=
  ∀ source limit input s, Lexeme.scan source = .ok input → ls <+: Parser.lexemes input →
    parse limit source ≠ .ok s

theorem IsDeadEnd.mono {ls ls' : List Lexeme} (h : IsDeadEnd ls) (hls : ls <+: ls') :
    IsDeadEnd ls' :=
  fun source limit input s hscan hstart => h source limit input s hscan (hls.trans hstart)

theorem moved_iff : Moved input input' ↔ Parser.lexemes input = Parser.lexemes input' := by
  rw [← List.forall₂_eq_eq_eq, Parser.lexemes, Parser.lexemes, List.forall₂_map_left_iff,
    List.forall₂_map_right_iff]

/-- If the error at a lexeme is there whatever follows it, then no other source gets over it,
    with whatever limit. -/
theorem isDeadEnd_of_ofLexemes {limit stop : Nat} {e : SyntaxError} {used : List Located}
    {l : Located}
    (h : ∀ tail, ofLexemes ⟨limit, stop⟩ (used ++ l :: tail) = .error (.malformed e)) :
    IsDeadEnd (Parser.lexemes (used ++ [l])) := by
  intro source limit' input s hscan hstart hs
  rw [parse_eq hscan] at hs
  obtain ⟨ls, hls⟩ := hstart
  obtain ⟨start, tail, rfl, hstart, -⟩ := List.map_eq_append_iff.1 hls.symm
  have hmoved : Moved (start ++ tail) (used ++ l :: tail) := by
    rw [List.append_cons]
    exact List.rel_append (moved_iff.2 hstart) (moved_iff.2 rfl)
  -- with a limit that is enough for both, one of them fails and the other one does not
  have hfails : ofLexemes ⟨max limit limit', stop⟩ (used ++ l :: tail) = .error (.malformed e) := by
    rw [(cut_ofLexemes (Nat.le_max_left ..) stop _).eq (by simp [h]), h]
  have hok : ofLexemes ⟨max limit limit', source.utf8ByteSize⟩ (start ++ tail) = .ok s := by
    rw [(cut_ofLexemes (Nat.le_max_right ..) _ _).eq (by simp [hs]), hs]
  cases hfails.symm.trans (ofLexemes_of_moved (by rfl) hmoved hok)

/-! ## Sources that go on -/

theorem exists_scan_fillers {more : List Lexeme} (hmore : ∀ l ∈ more, l ∈ fillers) :
    ∃ text input, Lexeme.scan text = .ok input ∧ Parser.lexemes input = more := by
  induction more with
  | nil => exact ⟨"", [], by rw [Lexeme.scan_eq_scanWithin]; rfl, rfl⟩
  | cons l more ih =>
    obtain ⟨text, input, hscan, hinput⟩ := ih fun l hl => hmore l (List.mem_cons_of_mem _ hl)
    have hfirst : ∃ span, Lexeme.scan l.text = .ok [⟨l, span⟩] := by
      have hl := hmore l List.mem_cons_self
      simp only [fillers, List.mem_cons, List.not_mem_nil, or_false] at hl
      rcases hl with rfl | rfl | rfl | rfl <;>
        exact ⟨⟨0, 1⟩, by rw [Lexeme.scan_eq_scanWithin]; rfl⟩
    obtain ⟨span, hfirst⟩ := hfirst
    obtain ⟨input', hscan', hmoved⟩ := Lexeme.exists_scan_append hfirst hscan
    refine ⟨l.text ++ " " ++ text, _, hscan', ?_⟩
    rw [lexemes_append, ← moved_iff.1 hmoved, hinput]
    rfl

/-- A source whose lexemes start a statement goes on to one. -/
theorem exists_continuation {source : String} (hscan : Lexeme.scan source = .ok input)
    (h : Starts IsSource (Parser.lexemes input)) :
    ∃ suffix input', Lexeme.scan (source ++ suffix) = .ok input' ∧
      Parser.lexemes input <+: Parser.lexemes input' ∧
      ∃ enough, ∀ limit ≥ enough, ∃ s, parse limit (source ++ suffix) = .ok s := by
  obtain ⟨more, hmore, d, hd⟩ := h
  obtain ⟨text, added, htext, hadded⟩ := exists_scan_fillers hmore
  obtain ⟨added', hscan', hmoved⟩ := Lexeme.exists_scan_append hscan htext
  rw [String.append_assoc] at hscan'
  have hlexemes : Parser.lexemes (input ++ added') = Parser.lexemes input ++ more := by
    rw [lexemes_append, ← moved_iff.1 hmoved, hadded]
  refine ⟨" " ++ text, input ++ added', hscan', ⟨more, hlexemes.symm⟩,
    (input ++ added').length + 1, fun limit hlimit => ?_⟩
  rw [parse_eq hscan']
  exact exists_ofLexemes hlimit (hd.trans hlexemes.symm)

/-! ## Where errors point to -/

/-- The lexemes start some statement. -/
def CanGoOn (ls : List Lexeme) : Prop := ∃ d : Source, ls <+: d.lexemes

theorem canGoOn_of_starts {ls : List Lexeme} (h : Starts IsSource ls) : CanGoOn ls := by
  obtain ⟨more, -, d, hd⟩ := h
  exact ⟨d, more, hd.symm⟩

/-- A syntax error points at the first lexeme that cannot be gone on with. If the source has
    ended too early, the error is at its end, and the source goes on to one that is accepted with
    every limit that is high enough. If a lexeme is not expected, the lexemes before it start a
    statement, and those up to it start no source that is accepted. If what stands before a
    question mark is not a comparison, the error is at its first lexeme; an expression could stand
    there, but the lexemes up to the question mark start no source that is accepted. -/
theorem error_at_first_lexeme {source : String} {limit : Nat} {e : SyntaxError}
    (hscan : Lexeme.scan source = .ok input) (h : parse limit source = .error (.malformed e)) :
    match e.cause with
    | .character _ => False
    | .ended _ => e.span = ⟨source.utf8ByteSize, source.utf8ByteSize⟩ ∧
        ∃ suffix input', Lexeme.scan (source ++ suffix) = .ok input' ∧
          Parser.lexemes input <+: Parser.lexemes input' ∧
          ∃ enough, ∀ limit' ≥ enough, ∃ s, parse limit' (source ++ suffix) = .ok s
    | .unexpected found _ => ∃ used l rest, input = used ++ l :: rest ∧ l.lexeme = found ∧
        e.span = l.span ∧ CanGoOn (Parser.lexemes used) ∧ IsDeadEnd (Parser.lexemes (used ++ [l]))
    | .condition => ∃ before first others mark rest,
        input = before ++ first :: others ++ mark :: rest ∧ mark.lexeme = .symbol .question ∧
        e.span = first.span ∧ Derives (.chain .logical) (Parser.lexemes (first :: others)) ∧
        (∀ d : Derivation .expression, CanGoOn (Parser.lexemes before ++ d.lexemes)) ∧
        IsDeadEnd (Parser.lexemes (before ++ first :: others ++ [mark])) := by
  rw [parse_eq hscan] at h
  obtain ⟨used, rest, rfl, hpoints, hlocal⟩ := exists_points h
  cases hpoints with
  | ended expected hstarts =>
    rw [List.append_nil] at hscan ⊢
    exact ⟨rfl, exists_continuation hscan hstarts⟩
  | unexpected l rest expected hstarts =>
    exact ⟨used, l, rest, rfl, rfl, rfl, canGoOn_of_starts hstarts,
      isDeadEnd_of_ofLexemes (hlocal l rest rfl)⟩
  | condition before first others mark rest hmark hcondition hstarts =>
    exact ⟨before, first, others, mark, rest, rfl, hmark, rfl, hcondition,
      fun d => canGoOn_of_starts (hstarts d), isDeadEnd_of_ofLexemes (hlocal mark rest rfl)⟩

/-- A call that ends after a comma goes on, one that is closed there does not, and neither does
    a list with a condition that is not a comparison. -/
theorem error_at_first_lexeme_call :
    (∃ suffix s, parse 64 "f(a," = .error (.malformed ⟨.ended .operand, ⟨4, 4⟩⟩) ∧
      ∃ limit, parse limit ("f(a," ++ suffix) = .ok s) ∧
    (parse 64 "f(a,)" = .error (.malformed ⟨.unexpected (.symbol .closeParen) .item, ⟨4, 5⟩⟩) ∧
      IsDeadEnd [.word "f", .symbol .openParen, .word "a", .symbol .comma, .symbol .closeParen]) ∧
    parse 64 "[a ?" = .error (.malformed ⟨.condition, ⟨1, 2⟩⟩) ∧
      IsDeadEnd [.symbol .openBracket, .word "a", .symbol .question] := by
  refine ⟨?_, ?_, ?_⟩
  · have hscan : Lexeme.scan "f(a," = .ok [⟨.word "f", ⟨0, 1⟩⟩, ⟨.symbol .openParen, ⟨1, 2⟩⟩,
        ⟨.word "a", ⟨2, 3⟩⟩, ⟨.symbol .comma, ⟨3, 4⟩⟩] := by
      rw [Lexeme.scan_eq_scanWithin]
      rfl
    have herror : parse 64 "f(a," = .error (.malformed ⟨.ended .operand, ⟨4, 4⟩⟩) := by
      rw [parse_eq hscan]
      rfl
    obtain ⟨-, suffix, -, -, -, enough, hs⟩ := error_at_first_lexeme hscan herror
    obtain ⟨s, hs⟩ := hs enough (Nat.le_refl _)
    exact ⟨suffix, s, herror, enough, hs⟩
  · have hscan : Lexeme.scan "f(a,)" = .ok [⟨.word "f", ⟨0, 1⟩⟩, ⟨.symbol .openParen, ⟨1, 2⟩⟩,
        ⟨.word "a", ⟨2, 3⟩⟩, ⟨.symbol .comma, ⟨3, 4⟩⟩, ⟨.symbol .closeParen, ⟨4, 5⟩⟩] := by
      rw [Lexeme.scan_eq_scanWithin]
      rfl
    have herror : parse 64 "f(a,)" =
        .error (.malformed ⟨.unexpected (.symbol .closeParen) .item, ⟨4, 5⟩⟩) := by
      rw [parse_eq hscan]
      rfl
    obtain ⟨used, l, rest, heq, -, -, -, hdead⟩ := error_at_first_lexeme hscan herror
    refine ⟨herror, hdead.mono ⟨Parser.lexemes rest, ?_⟩⟩
    rw [← lexemes_append, List.append_assoc, List.singleton_append, ← heq]
    rfl
  · have hscan : Lexeme.scan "[a ?" = .ok [⟨.symbol .openBracket, ⟨0, 1⟩⟩, ⟨.word "a", ⟨1, 2⟩⟩,
        ⟨.symbol .question, ⟨3, 4⟩⟩] := by
      rw [Lexeme.scan_eq_scanWithin]
      rfl
    have herror : parse 64 "[a ?" = .error (.malformed ⟨.condition, ⟨1, 2⟩⟩) := by
      rw [parse_eq hscan]
      rfl
    obtain ⟨before, first, others, mark, rest, heq, -, -, -, -, hdead⟩ :=
      error_at_first_lexeme hscan herror
    refine ⟨herror, hdead.mono ⟨Parser.lexemes rest, ?_⟩⟩
    rw [← lexemes_append, List.append_assoc _ [mark], List.singleton_append, ← heq]
    rfl

end Statement

end RigExpr
