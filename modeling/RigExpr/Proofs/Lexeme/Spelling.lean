import Mathlib.Data.List.TakeWhile
import RigExpr.Proofs.Grammar.Places
import RigExpr.Proofs.Number.Sign

/-!
# How lexemes are spelled

A number is digits, a point with digits, or both, with an exponent perhaps
(`Lexeme.IsNumber`); a word is a letter with letters, digits, `_` and `$` after it; and a symbol
has one text. Scanning knows nothing else: at each place it takes the longest text that is spelled
like a lexeme (`Lexeme.next?_eq_some_iff`), and it takes none where no lexeme starts with the
character there (`Lexeme.next?_eq_none_iff`).

Lexemes are spelled with characters of one byte, and without blanks (`Lexeme.IsSpelled.mem`).
-/

namespace RigExpr.Lexeme

/-- A text spelled as a number: `digits [. digits]` or `. digits`, then perhaps an exponent. -/
def IsNumber (s : String) : Prop :=
  ∃ whole part power, s.toList = whole ++ part ++ power ∧ (∀ d ∈ whole, d.isDigit = true) ∧
    IsFraction part ∧ IsExponent power ∧ (whole = [] → part ≠ [])

/-- The text of the lexeme is spelled like its kind. -/
def IsSpelled : Lexeme → Prop
  | number text => IsNumber text
  | word text => IsWord text
  | symbol _ => True

/-! ## Numbers -/

theorem digits_append {ds : List Char} (h : ∀ d ∈ ds, d.isDigit = true) (cs : List Char) :
    digits (ds ++ cs) = (ds ++ (digits cs).1, (digits cs).2) := by
  rw [digits, List.takeWhile_append_of_pos h, List.dropWhile_append_of_pos h, digits]

theorem startsWithDigit_append {ds : List Char} (hne : ds ≠ [])
    (h : ∀ d ∈ ds, d.isDigit = true) (cs : List Char) : startsWithDigit (ds ++ cs) = true := by
  obtain ⟨d, ds, rfl⟩ := List.exists_cons_of_ne_nil hne
  exact h d List.mem_cons_self

theorem numeral_append_digits {ds : List Char} (h : ∀ d ∈ ds, d.isDigit = true)
    (cs : List Char) : numeral (ds ++ cs) = (ds ++ (numeral cs).1, (numeral cs).2) := by
  simp only [numeral, digits_append h, List.append_assoc]

theorem numeral_point {ds : List Char} (hne : ds ≠ []) (h : ∀ d ∈ ds, d.isDigit = true)
    (cs : List Char) : (numeral ('.' :: (ds ++ cs))).1 =
      '.' :: (ds ++ ((digits cs).1 ++ (exponent (digits cs).2).1)) := by
  have hpoint : digits ('.' :: (ds ++ cs)) = ([], '.' :: (ds ++ cs)) := rfl
  have hfraction :
      fraction ('.' :: (ds ++ cs)) = ('.' :: (ds ++ (digits cs).1), (digits cs).2) := by
    have hdigits := digits_append h cs
    obtain ⟨d, ds, rfl⟩ := List.exists_cons_of_ne_nil hne
    rw [List.cons_append] at hdigits ⊢
    rw [fraction, if_pos (h d List.mem_cons_self), hdigits]
  simp only [numeral, hpoint, hfraction, List.nil_append, List.cons_append, List.append_assoc]

theorem digits_exponent {c : Char} (hc : c = 'e' ∨ c = 'E') (cs : List Char) :
    digits (c :: cs) = ([], c :: cs) := by
  rcases hc with rfl | rfl <;> rfl

theorem fraction_exponent {c : Char} (hc : c = 'e' ∨ c = 'E') (cs : List Char) :
    fraction (c :: cs) = ([], c :: cs) := by
  rcases hc with rfl | rfl <;> rfl

theorem exponent_append {c : Char} {s ds : List Char} (hc : c = 'e' ∨ c = 'E')
    (hs : s = [] ∨ s = ['+'] ∨ s = ['-']) (hne : ds ≠ []) (h : ∀ d ∈ ds, d.isDigit = true)
    (cs : List Char) : (exponent (c :: (s ++ ds ++ cs))).1 = c :: (s ++ ds ++ (digits cs).1) := by
  have hsign : sign (s ++ ds ++ cs) = (s, ds ++ cs) := by
    rcases hs with rfl | rfl | rfl
    · -- the first digit is no sign
      obtain ⟨d, ds, rfl⟩ := List.exists_cons_of_ne_nil hne
      have hd := h d List.mem_cons_self
      rw [List.nil_append, List.cons_append]
      unfold sign
      split
      · next heq => cases heq; exact absurd hd (by decide)
      · next heq => cases heq; exact absurd hd (by decide)
      · rfl
    · rfl
    · rfl
  rw [exponent, if_pos hc, hsign]
  dsimp only
  rw [if_pos (startsWithDigit_append hne h cs), digits_append h, List.append_assoc]

/-- The exponent that the digits in front of it end at is read to its end. -/
theorem prefix_digits_exponent {power : List Char} (h : IsExponent power) (cs : List Char) :
    power <+: (digits (power ++ cs)).1 ++ (exponent (digits (power ++ cs)).2).1 := by
  rcases h with rfl | ⟨c, s, ds, rfl, hc, hs, hne, hds⟩
  · exact List.nil_prefix
  · rw [List.cons_append, digits_exponent hc]
    dsimp only
    rw [List.nil_append, exponent_append hc hs hne hds]
    exact ⟨_, rfl⟩

/-- A number is read to its end, whatever comes after it. -/
theorem IsNumber.prefix_numeral {s : String} (h : IsNumber s) (cs : List Char) :
    s.toList <+: (numeral (s.toList ++ cs)).1 := by
  obtain ⟨whole, part, power, hs, hwhole, hpart, hpower, -⟩ := h
  rw [hs, List.append_assoc, List.append_assoc, numeral_append_digits hwhole, List.append_assoc,
    List.prefix_append_right_inj]
  rcases hpart with rfl | ⟨ds, rfl, hne, hds⟩
  · rw [List.nil_append, List.nil_append]
    rcases hpower with rfl | ⟨c, s, ds, rfl, hc, hs, hne, hds⟩
    · exact List.nil_prefix
    · rw [List.cons_append, numeral, digits_exponent hc]
      dsimp only
      rw [fraction_exponent hc]
      dsimp only
      rw [exponent_append hc hs hne hds]
      exact ⟨_, rfl⟩
  · rw [List.cons_append, List.cons_append, numeral_point hne hds,
      List.cons_prefix_cons, List.prefix_append_right_inj]
    exact ⟨rfl, prefix_digits_exponent hpower cs⟩

theorem IsNumber.startsNumber {s : String} (h : IsNumber s) (cs : List Char) :
    startsNumber (s.toList ++ cs) = true := by
  obtain ⟨whole, part, power, hs, hwhole, hpart, -, hne⟩ := h
  rw [hs, List.append_assoc, List.append_assoc]
  cases whole with
  | cons d whole =>
    have hd := hwhole d List.mem_cons_self
    unfold Lexeme.startsNumber
    split
    · next heq => cases heq; exact absurd hd (by decide)
    · exact hd
  | nil =>
    rcases hpart with rfl | ⟨ds, rfl, hdsne, hds⟩
    · exact absurd rfl (hne rfl)
    · exact startsWithDigit_append hdsne hds _

theorem IsNumber.numeral_eq {s : String} (h : IsNumber s) : numeral s.toList = (s.toList, []) := by
  have happend := append_numeral s.toList
  have hlength := congrArg List.length happend
  have hle := (h.prefix_numeral []).length_le
  rw [List.append_nil] at hle
  rw [List.length_append] at hlength
  have hrest : (numeral s.toList).2 = [] := List.eq_nil_of_length_eq_zero (by omega)
  rw [hrest, List.append_nil] at happend
  exact Prod.ext happend hrest

/-- The texts that are read as numbers are those that are spelled so. -/
theorem isNumeral_iff_isNumber {s : String} : IsNumeral s ↔ IsNumber s := by
  refine ⟨IsNumeral.exists_parts, fun h => ⟨s.toList, ?_, by rw [h.numeral_eq]⟩⟩
  simpa using h.startsNumber []

/-! ## Symbols -/

theorem after?_append (t cs : List Char) : after? t (t ++ cs) = some cs := by
  induction t with
  | nil => rfl
  | cons c t ih => rw [List.cons_append, after?, if_pos rfl, ih]

theorem mem_all (s : Symbol) : s ∈ Symbol.all := by cases s <;> decide

theorem pairwise_all : Symbol.all.Pairwise fun s s' => s'.text.length ≤ s.text.length := by
  decide

/-- The symbol that is read is the longest one there. -/
theorem length_le_of_symbol? {cs rest : List Char} {s s' : Symbol}
    (h : symbol? cs = some (s, rest)) (hfront : s'.text.toList <+: cs) :
    s'.text.length ≤ s.text.length := by
  obtain ⟨longer, t, others, hall, ht, hlonger⟩ := List.findSome?_eq_some_iff.1 h
  obtain ⟨_, -, heq⟩ := Option.map_eq_some_iff.1 ht
  cases heq
  obtain ⟨after, rfl⟩ := hfront
  have hmem := mem_all s'
  rw [hall, List.mem_append, List.mem_cons] at hmem
  rcases hmem with hmem | rfl | hmem
  · have := hlonger s' hmem
    rw [after?_append] at this
    cases this
  · exact Nat.le_refl _
  · have hpairs := pairwise_all
    rw [hall] at hpairs
    exact List.rel_of_pairwise_cons (List.pairwise_append.1 hpairs).2.1 hmem

theorem exists_symbol? {cs : List Char} {s : Symbol} (h : s.text.toList <+: cs) :
    ∃ s' rest, symbol? cs = some (s', rest) := by
  obtain ⟨after, rfl⟩ := h
  have hsome : (symbol? (s.text.toList ++ after)).isSome = true :=
    List.findSome?_isSome_iff.2 ⟨s, mem_all s, by rw [after?_append]; rfl⟩
  obtain ⟨⟨s', rest⟩, hs'⟩ := Option.isSome_iff_exists.1 hsome
  exact ⟨s', rest, hs'⟩

/-! ## The longest lexeme -/

theorem isSpelled_of_next? {cs rest : List Char} {l : Lexeme} (h : next? cs = some (l, rest)) :
    l.IsSpelled := by
  have hwritten := isWritten_of_next? h
  cases l with
  | number t => exact isNumeral_iff_isNumber.1 hwritten
  | word t => exact hwritten
  | symbol s => trivial

theorem next?_of_startsNumber {cs : List Char} (h : startsNumber cs = true) :
    next? cs = some (.number (String.ofList (numeral cs).1), (numeral cs).2) := by
  rw [next?.eq_def, if_pos h]

theorem next?_of_isAlpha {c : Char} (hc : c.isAlpha = true) (cs : List Char) :
    next? (c :: cs) = some (.word (String.ofList (c :: cs.takeWhile isWordRest)),
      cs.dropWhile isWordRest) := by
  rw [next?, if_neg (by simp [startsNumber_of_isAlpha hc])]
  exact if_pos hc

theorem startsNumber_symbol {s : Symbol} (hs : s ≠ .dot) (cs : List Char) :
    startsNumber (s.text.toList ++ cs) = false := by
  cases s with
  | dot => exact absurd rfl hs
  | _ => rfl

theorem next?_symbol {s s' : Symbol} {cs rest : List Char}
    (hstart : startsNumber (s.text.toList ++ cs) = false)
    (h : symbol? (s.text.toList ++ cs) = some (s', rest)) :
    next? (s.text.toList ++ cs) = some (.symbol s', rest) := by
  rw [next?.eq_def, if_neg (by simp [hstart]), h]
  cases s <;> rfl

/-- Where a text is spelled like a lexeme, one is read, and not a shorter one. -/
theorem exists_next?_of_prefix {cs : List Char} {l : Lexeme} (hl : l.IsSpelled)
    (h : l.text.toList <+: cs) :
    ∃ l' rest, next? cs = some (l', rest) ∧ l.text.length ≤ l'.text.length := by
  obtain ⟨after, rfl⟩ := h
  cases l with
  | number t =>
    refine ⟨_, _, next?_of_startsNumber (IsNumber.startsNumber hl after), ?_⟩
    rw [text, text, String.length_ofList, ← String.length_toList]
    exact (IsNumber.prefix_numeral hl after).length_le
  | word t =>
    obtain ⟨c, cs, ht, hc, hcs⟩ := hl
    rw [text, ht, List.cons_append]
    refine ⟨_, _, next?_of_isAlpha hc _, ?_⟩
    rw [List.takeWhile_append_of_pos hcs]
    simp only [text, ← String.length_toList, ht, String.toList_ofList, List.length_cons,
      List.length_append]
    omega
  | symbol s =>
    cases hstart : startsNumber (s.text.toList ++ after) with
    | true =>
      -- a point that a digit follows
      refine ⟨_, _, next?_of_startsNumber hstart, ?_⟩
      have hpos := List.length_pos_iff.2 (numeral_ne_nil hstart)
      have hdot : s = .dot := by
        by_contra hs
        rw [startsNumber_symbol hs] at hstart
        cases hstart
      subst hdot
      rw [text, String.length_ofList]
      exact hpos
    | false =>
      obtain ⟨s', rest, hs'⟩ := exists_symbol? ⟨after, rfl⟩
      exact ⟨.symbol s', rest, next?_symbol hstart hs', length_le_of_symbol? hs' ⟨after, rfl⟩⟩

/-- The text of a lexeme is read as this lexeme. -/
theorem next?_text {l : Lexeme} (hl : l.IsSpelled) : next? l.text.toList = some (l, []) := by
  cases l with
  | number t =>
    have hstart := IsNumber.startsNumber hl []
    rw [List.append_nil] at hstart
    rw [text, next?_of_startsNumber hstart, IsNumber.numeral_eq hl, String.ofList_toList]
  | word t =>
    obtain ⟨c, cs, ht, hc, hcs⟩ := hl
    rw [text, ht, next?_of_isAlpha hc, List.takeWhile_eq_self_iff.2 hcs,
      List.dropWhile_eq_nil_iff.2 hcs, ← ht, String.ofList_toList]
  | symbol s => cases s <;> rfl

theorem eq_of_text_eq {l l' : Lexeme} (hl : l.IsSpelled) (hl' : l'.IsSpelled)
    (h : l.text = l'.text) : l = l' := by
  have hnext := next?_text hl
  rw [h, next?_text hl'] at hnext
  cases hnext
  rfl

/-- What is read is the longest lexeme here. -/
theorem next?_eq_some_iff {cs rest : List Char} {l : Lexeme} :
    next? cs = some (l, rest) ↔ l.IsSpelled ∧ l.text.toList ++ rest = cs ∧
      ∀ l' : Lexeme, l'.IsSpelled → l'.text.toList <+: cs → l'.text.length ≤ l.text.length := by
  constructor
  · intro h
    refine ⟨isSpelled_of_next? h, append_of_next? h, fun l' hl' hfront => ?_⟩
    obtain ⟨l₁, rest₁, h₁, hle⟩ := exists_next?_of_prefix hl' hfront
    cases h₁.symm.trans h
    exact hle
  · rintro ⟨hl, rfl, hlongest⟩
    -- something is read here, which is neither shorter nor longer
    obtain ⟨l', rest', h', hle⟩ := exists_next?_of_prefix hl ⟨rest, rfl⟩
    have happend := append_of_next? h'
    have hge := hlongest l' (isSpelled_of_next? h') ⟨rest', happend⟩
    obtain ⟨htext, rfl⟩ := List.append_inj happend (by simp only [String.length_toList]; omega)
    rw [h', eq_of_text_eq (isSpelled_of_next? h') hl (String.toList_inj.1 htext)]

/-! ## Where no lexeme starts -/

theorem exists_symbol_singleton (s : Symbol) :
    ∃ s' : Symbol, s'.text.toList = s.text.toList.take 1 := by
  have hall : ∀ s ∈ Symbol.all, ∃ s' ∈ Symbol.all, s'.text.toList = s.text.toList.take 1 := by
    decide
  obtain ⟨s', -, hs'⟩ := hall s (mem_all s)
  exact ⟨s', hs'⟩

/-- The first character of a lexeme is a lexeme already. -/
theorem exists_isSpelled_singleton {l : Lexeme} (hl : l.IsSpelled) {c : Char}
    (h : l.text.toList.head? = some c) :
    ∃ l' : Lexeme, l'.IsSpelled ∧ l'.text.toList = [c] := by
  obtain ⟨cs, hcs⟩ := List.head?_eq_some_iff.1 h
  cases l with
  | number t =>
    obtain ⟨d, ds, ht, hd⟩ := Number.exists_cons_of_isNumeral (isNumeral_iff_isNumber.2 hl)
    obtain ⟨rfl, -⟩ := List.cons.inj (ht.symm.trans hcs)
    rcases hd with rfl | hd
    · exact ⟨.symbol .dot, trivial, rfl⟩
    · have hnumber : IsNumber (String.ofList [d]) :=
        ⟨[d], [], [], String.toList_ofList, by simpa using hd, .inl rfl, .inl rfl, by simp⟩
      exact ⟨.number (String.ofList [d]), hnumber, String.toList_ofList⟩
  | word t =>
    obtain ⟨d, ds, ht, hd, -⟩ := hl
    obtain ⟨rfl, -⟩ := List.cons.inj (ht.symm.trans hcs)
    have hword : IsWord (String.ofList [d]) := ⟨d, [], String.toList_ofList, hd, by simp⟩
    exact ⟨.word (String.ofList [d]), hword, String.toList_ofList⟩
  | symbol s =>
    obtain ⟨s', hs'⟩ := exists_symbol_singleton s
    rw [text] at hcs
    exact ⟨.symbol s', trivial, by rw [text, hs', hcs, List.take_succ_cons, List.take_zero]⟩

/-- Nothing is read where no lexeme starts with the character here. -/
theorem next?_eq_none_iff {c : Char} {cs : List Char} :
    next? (c :: cs) = none ↔ ∀ l : Lexeme, l.IsSpelled → l.text.toList.head? ≠ some c := by
  constructor
  · intro h l hl hc
    obtain ⟨l', hl', htext⟩ := exists_isSpelled_singleton hl hc
    have hfront : l'.text.toList <+: c :: cs := htext ▸ ⟨cs, rfl⟩
    obtain ⟨_, _, hnext, -⟩ := exists_next?_of_prefix hl' hfront
    rw [h] at hnext
    cases hnext
  · intro h
    rw [Option.eq_none_iff_forall_ne_some]
    rintro ⟨l, rest⟩ hnext
    refine h l (isSpelled_of_next? hnext) ?_
    rw [← List.head?_append_of_ne_nil _ (ne_nil_of_next? hnext), append_of_next? hnext,
      List.head?_cons]

/-! ## Characters of lexemes -/

theorem isWordRest_of_isDigit {c : Char} (h : c.isDigit = true) : isWordRest c = true := by
  simp [isWordRest, Char.isAlphanum, h]

theorem IsNumber.mem {s : String} (h : IsNumber s) {c : Char} (hc : c ∈ s.toList) :
    isWordRest c = true ∨ c = '.' ∨ c = '+' ∨ c = '-' := by
  obtain ⟨whole, part, power, hs, hwhole, hpart, hpower, -⟩ := h
  rw [hs, List.mem_append, List.mem_append] at hc
  rcases hc with (hc | hc) | hc
  · exact .inl (isWordRest_of_isDigit (hwhole c hc))
  · rcases hpart with rfl | ⟨ds, rfl, -, hds⟩
    · cases hc
    · rcases List.mem_cons.1 hc with rfl | hc
      · exact .inr (.inl rfl)
      · exact .inl (isWordRest_of_isDigit (hds c hc))
  · rcases hpower with rfl | ⟨e, sign, ds, rfl, he, hsign, -, hds⟩
    · cases hc
    · rw [List.mem_cons, List.mem_append] at hc
      rcases hc with rfl | hc | hc
      · rcases he with rfl | rfl <;> exact .inl rfl
      · rcases hsign with rfl | rfl | rfl
        · cases hc
        · exact .inr (.inr (.inl (List.mem_singleton.1 hc)))
        · exact .inr (.inr (.inr (List.mem_singleton.1 hc)))
      · exact .inl (isWordRest_of_isDigit (hds c hc))

theorem plain_of_isWordRest {c : Char} (h : isWordRest c = true) :
    c.utf8Size = 1 ∧ isBlank c = false := by
  constructor
  · rw [Char.utf8Size_eq_one_iff]
    simp only [isWordRest, Bool.or_eq_true, decide_eq_true_eq] at h
    rcases h with (h | rfl) | rfl
    · simp only [Char.isAlphanum, Bool.or_eq_true, Number.isAlpha_iff] at h
      simp [Char.isDigit, UInt32.le_iff_toNat_le] at h ⊢
      omega
    · decide
    · decide
  · by_contra hblank
    simp only [isBlank, Bool.not_eq_false, Bool.or_eq_true, decide_eq_true_eq] at hblank
    rcases hblank with (((rfl | rfl) | rfl) | rfl) | rfl <;> exact absurd h (by decide)

/-- Lexemes are spelled with characters of one byte, and without blanks. -/
theorem IsSpelled.mem {l : Lexeme} (h : l.IsSpelled) {c : Char} (hc : c ∈ l.text.toList) :
    c.utf8Size = 1 ∧ isBlank c = false := by
  cases l with
  | number t =>
    rcases IsNumber.mem h hc with hc | rfl | rfl | rfl
    · exact plain_of_isWordRest hc
    all_goals decide
  | word t =>
    refine plain_of_isWordRest ?_
    simpa [isWordRest, or_assoc] using IsWord.mem h hc
  | symbol s =>
    have hall : Symbol.all.all fun s =>
        s.text.toList.all fun c => c.utf8Size == 1 && !isBlank c := by decide
    simpa using List.all_eq_true.1 (List.all_eq_true.1 hall s (mem_all s)) c hc

end RigExpr.Lexeme
