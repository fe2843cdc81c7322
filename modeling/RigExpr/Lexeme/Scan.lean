import RigExpr.Expr.Error

/-!
# Scanning

`Lexeme.scan` splits a source into lexemes and drops the blanks between them.
At each place it takes the longest lexeme there: `==` is one symbol, `1.5e-3`
one number, and in `2E` the letter is a word of its own, since no digit follows
it.

* `append_of_next?`: what `next?` reads and what it leaves make up the source.
* `length_of_next?`: it leaves less than it was given.
-/

namespace RigExpr.Lexeme

/-- The characters that separate lexemes. -/
def isBlank (c : Char) : Bool :=
  c = ' ' || c = '\t' || c = '\n' || c = '\x0c' || c = '\r'

/-- The characters that may follow the first letter of a word. -/
def isWordRest (c : Char) : Bool := c.isAlphanum || c = '_' || c = '$'

/-- The leading digits, and what follows them. -/
def digits (cs : List Char) : List Char × List Char :=
  (cs.takeWhile Char.isDigit, cs.dropWhile Char.isDigit)

/-- A point and digits, if a digit follows the point, and what follows them. -/
def fraction : List Char → List Char × List Char
  | '.' :: d :: cs =>
    if d.isDigit then
      let (ds, rest) := digits (d :: cs)
      ('.' :: ds, rest)
    else ([], '.' :: d :: cs)
  | cs => ([], cs)

/-- Whether the characters start with a digit. -/
def startsWithDigit : List Char → Bool
  | d :: _ => d.isDigit
  | [] => false

/-- The sign of an exponent, if any, and what follows it. -/
def sign : List Char → List Char × List Char
  | '+' :: cs => (['+'], cs)
  | '-' :: cs => (['-'], cs)
  | cs => ([], cs)

/-- An exponent with its digits, if it has any, and what follows it. -/
def exponent : List Char → List Char × List Char
  | c :: cs =>
    if c = 'e' ∨ c = 'E' then
      let (s, rest) := sign cs
      if startsWithDigit rest then
        let (ds, rest) := digits rest
        (c :: (s ++ ds), rest)
      else ([], c :: cs)
    else ([], c :: cs)
  | [] => ([], [])

/-- The characters of a leading number, and what follows them. -/
def numeral (cs : List Char) : List Char × List Char :=
  let (whole, rest) := digits cs
  let (part, rest) := fraction rest
  let (power, rest) := exponent rest
  (whole ++ part ++ power, rest)

/-- Whether a number starts here: with a digit, or a point before a digit. -/
def startsNumber : List Char → Bool
  | '.' :: cs => startsWithDigit cs
  | cs => startsWithDigit cs

/-- What follows the text `t`, if the characters start with it. -/
def after? : (t cs : List Char) → Option (List Char)
  | [], cs => some cs
  | _ :: _, [] => none
  | t :: ts, c :: cs => if t = c then after? ts cs else none

/-- The longest symbol here, and what follows it. -/
def symbol? (cs : List Char) : Option (Symbol × List Char) :=
  Symbol.all.findSome? fun s => (after? s.text.toList cs).map fun rest => (s, rest)

/-- The lexeme at the start of the characters, and what follows it. -/
def next? (cs : List Char) : Option (Lexeme × List Char) :=
  if startsNumber cs then
    let (text, rest) := numeral cs
    some (.number (String.ofList text), rest)
  else
    match cs with
    | c :: rest =>
      if c.isAlpha then
        some (.word (String.ofList (c :: rest.takeWhile isWordRest)), rest.dropWhile isWordRest)
      else (symbol? cs).map fun (s, rest) => (.symbol s, rest)
    | [] => none

/-! ## What is read and what is left -/

theorem append_digits (cs : List Char) : (digits cs).1 ++ (digits cs).2 = cs := by
  simp [digits, List.takeWhile_append_dropWhile]

theorem append_fraction (cs : List Char) : (fraction cs).1 ++ (fraction cs).2 = cs := by
  unfold fraction
  split
  · split
    · simp [append_digits]
    · simp
  · simp

theorem append_sign (cs : List Char) : (sign cs).1 ++ (sign cs).2 = cs := by
  unfold sign
  split <;> simp

theorem append_exponent (cs : List Char) : (exponent cs).1 ++ (exponent cs).2 = cs := by
  unfold exponent
  split
  · next c cs =>
    split
    · dsimp only
      split
      · rw [List.cons_append, List.append_assoc, append_digits, append_sign]
      · simp
    · simp
  · simp

theorem append_numeral (cs : List Char) : (numeral cs).1 ++ (numeral cs).2 = cs := by
  simp only [numeral, List.append_assoc, append_exponent, append_fraction, append_digits]

theorem append_after? {t cs rest : List Char} (h : after? t cs = some rest) :
    t ++ rest = cs := by
  fun_induction after? t cs <;> simp_all

theorem append_symbol? {cs rest : List Char} {s : Symbol} (h : symbol? cs = some (s, rest)) :
    s.text.toList ++ rest = cs := by
  obtain ⟨s', -, hs⟩ := List.exists_of_findSome?_eq_some h
  obtain ⟨rest', hr, heq⟩ := Option.map_eq_some_iff.1 hs
  simp only [Prod.mk.injEq] at heq
  obtain ⟨rfl, rfl⟩ := heq
  exact append_after? hr

/-- What is read and what is left make up the source. -/
theorem append_of_next? {cs rest : List Char} {l : Lexeme} (h : next? cs = some (l, rest)) :
    l.text.toList ++ rest = cs := by
  unfold next? at h
  split at h
  · simp only [Option.some.injEq, Prod.mk.injEq] at h
    obtain ⟨rfl, rfl⟩ := h
    simp [text, append_numeral]
  · split at h
    · next c rest' _ =>
      split at h
      · simp only [Option.some.injEq, Prod.mk.injEq] at h
        obtain ⟨rfl, rfl⟩ := h
        simp [text, List.takeWhile_append_dropWhile]
      · obtain ⟨⟨s, r⟩, hs, heq⟩ := Option.map_eq_some_iff.1 h
        simp only [Prod.mk.injEq] at heq
        obtain ⟨rfl, rfl⟩ := heq
        simpa [text] using append_symbol? hs
    · simp at h

theorem numeral_ne_nil {cs : List Char} (h : startsNumber cs = true) : (numeral cs).1 ≠ [] := by
  unfold startsNumber at h
  split at h
  · next cs =>
    cases cs with
    | nil => simp [startsWithDigit] at h
    | cons d ds =>
      simp only [startsWithDigit] at h
      simp [numeral, digits, fraction, h]
  · cases cs with
    | nil => simp [startsWithDigit] at h
    | cons d ds =>
      simp only [startsWithDigit] at h
      simp [numeral, digits, h]

theorem text_ne_nil (s : Symbol) : s.text.toList ≠ [] := by
  cases s <;> simp [Symbol.text]

/-- A lexeme is never empty. -/
theorem ne_nil_of_next? {cs rest : List Char} {l : Lexeme} (h : next? cs = some (l, rest)) :
    l.text.toList ≠ [] := by
  unfold next? at h
  split at h
  · next hn =>
    simp only [Option.some.injEq, Prod.mk.injEq] at h
    obtain ⟨rfl, rfl⟩ := h
    simpa [text] using numeral_ne_nil hn
  · split at h
    · split at h
      · simp only [Option.some.injEq, Prod.mk.injEq] at h
        obtain ⟨rfl, rfl⟩ := h
        simp [text]
      · obtain ⟨⟨s, r⟩, -, heq⟩ := Option.map_eq_some_iff.1 h
        simp only [Prod.mk.injEq] at heq
        obtain ⟨rfl, rfl⟩ := heq
        exact text_ne_nil s
    · simp at h

/-- Reading a lexeme leaves less than there was. -/
theorem length_of_next? {cs rest : List Char} {l : Lexeme} (h : next? cs = some (l, rest)) :
    rest.length < cs.length := by
  have hlen := congrArg List.length (append_of_next? h)
  have hpos := List.length_pos_iff.2 (ne_nil_of_next? h)
  simp only [List.length_append] at hlen
  omega

/-! ## The lexemes of a source -/

/-- The lexemes of the characters, the first of which stands at byte `start`.
    All blanks and all characters of lexemes take one byte. -/
def scanFrom (start : Nat) (cs : List Char) : Except SyntaxError (List Located) :=
  match cs with
  | [] => .ok []
  | c :: rest =>
    if isBlank c then scanFrom (start + 1) rest
    else
      match _h : next? (c :: rest) with
      | some (l, rest) =>
        let stop := start + l.text.length
        match scanFrom stop rest with
        | .ok more => .ok (⟨l, ⟨start, stop⟩⟩ :: more)
        | .error e => .error e
      | none => .error ⟨.character c, ⟨start, start + c.utf8Size⟩⟩
termination_by cs.length
decreasing_by
  · simp
  · exact length_of_next? _h

/-- The lexemes of a source. -/
def scan (source : String) : Except SyntaxError (List Located) := scanFrom 0 source.toList

end RigExpr.Lexeme
