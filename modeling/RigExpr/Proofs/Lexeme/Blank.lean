import RigExpr.Proofs.Grammar.Places

/-!
# A blank ends a lexeme

No lexeme has a blank in it, so whatever stands before a blank is read as if nothing came after
it (`Lexeme.next?_append_blank`). A source that goes on after a blank has the lexemes of both
parts (`Lexeme.exists_scan_append`).
-/

namespace RigExpr.Lexeme

theorem takeWhile_append_blank {p : Char → Bool} (hp : p ' ' = false) (cs more : List Char) :
    (cs ++ ' ' :: more).takeWhile p = cs.takeWhile p := by
  induction cs with
  | nil => simp [hp]
  | cons c cs ih => simp [List.takeWhile_cons, ih]

theorem dropWhile_append_blank {p : Char → Bool} (hp : p ' ' = false) (cs more : List Char) :
    (cs ++ ' ' :: more).dropWhile p = cs.dropWhile p ++ ' ' :: more := by
  induction cs with
  | nil => simp [hp]
  | cons c cs ih =>
    simp only [List.cons_append, List.dropWhile_cons, ih]
    split <;> rfl

/-! ## Numbers -/

theorem digits_append_blank (cs more : List Char) :
    digits (cs ++ ' ' :: more) = ((digits cs).1, (digits cs).2 ++ ' ' :: more) := by
  have hblank : Char.isDigit ' ' = false := rfl
  rw [digits, takeWhile_append_blank hblank, dropWhile_append_blank hblank]
  rfl

theorem fraction_append_blank (cs more : List Char) :
    fraction (cs ++ ' ' :: more) = ((fraction cs).1, (fraction cs).2 ++ ' ' :: more) := by
  rcases cs with _ | ⟨c, _ | ⟨d, cs⟩⟩
  · simp [fraction]
  · by_cases hc : c = '.'
    · subst hc
      simp [fraction, Char.isDigit]
    · simp [fraction, hc]
  · by_cases hc : c = '.'
    · subst hc
      have hdigits := digits_append_blank (d :: cs) more
      rw [List.cons_append] at hdigits
      by_cases hd : d.isDigit = true <;> simp [fraction, hd, hdigits]
    · simp [fraction, hc]

theorem startsWithDigit_append_blank (cs more : List Char) :
    startsWithDigit (cs ++ ' ' :: more) = startsWithDigit cs := by
  cases cs <;> rfl

theorem sign_append_blank (cs more : List Char) :
    sign (cs ++ ' ' :: more) = ((sign cs).1, (sign cs).2 ++ ' ' :: more) := by
  rcases cs with _ | ⟨c, cs⟩
  · simp [sign]
  · by_cases hplus : c = '+'
    · subst hplus
      rfl
    · by_cases hminus : c = '-'
      · subst hminus
        rfl
      · simp [sign, hplus, hminus]

theorem exponent_append_blank (cs more : List Char) :
    exponent (cs ++ ' ' :: more) = ((exponent cs).1, (exponent cs).2 ++ ' ' :: more) := by
  rcases cs with _ | ⟨c, cs⟩
  · simp [exponent]
  · rw [List.cons_append, exponent, exponent]
    split
    · simp only [sign_append_blank, startsWithDigit_append_blank, digits_append_blank]
      split <;> rfl
    · rfl

theorem numeral_append_blank (cs more : List Char) :
    numeral (cs ++ ' ' :: more) = ((numeral cs).1, (numeral cs).2 ++ ' ' :: more) := by
  simp only [numeral, digits_append_blank, fraction_append_blank, exponent_append_blank]

theorem startsNumber_append_blank (cs more : List Char) :
    startsNumber (cs ++ ' ' :: more) = startsNumber cs := by
  rcases cs with _ | ⟨c, cs⟩
  · rfl
  · by_cases hc : c = '.'
    · subst hc
      exact startsWithDigit_append_blank cs more
    · simp [startsNumber, hc, startsWithDigit]

/-! ## Lexemes -/

theorem after?_append_blank {t : List Char} (ht : ' ' ∉ t) (cs more : List Char) :
    after? t (cs ++ ' ' :: more) = (after? t cs).map (· ++ ' ' :: more) := by
  induction t generalizing cs with
  | nil => cases cs <;> rfl
  | cons c t ih =>
    rw [List.mem_cons, not_or] at ht
    rcases cs with _ | ⟨d, cs⟩
    · simp [after?, Ne.symm ht.1]
    · rw [List.cons_append, after?, after?]
      split
      · exact ih ht.2 cs
      · rfl

theorem symbol?_append_blank (cs more : List Char) :
    symbol? (cs ++ ' ' :: more) = (symbol? cs).map fun r => (r.1, r.2 ++ ' ' :: more) := by
  have hblank (s : Symbol) : ' ' ∉ s.text.toList := by
    cases s <;> simp [Symbol.text]
  simp only [symbol?, after?_append_blank (hblank _)]
  induction Symbol.all with
  | nil => rfl
  | cons s rest ih =>
    simp only [List.findSome?_cons]
    cases after? s.text.toList cs with
    | none => exact ih
    | some left => rfl

/-- What stands before a blank is read as if nothing came after it. -/
theorem next?_append_blank {cs rest : List Char} {l : Lexeme} (h : next? cs = some (l, rest))
    (more : List Char) : next? (cs ++ ' ' :: more) = some (l, rest ++ ' ' :: more) := by
  have hword : isWordRest ' ' = false := rfl
  rcases cs with _ | ⟨c, cs⟩
  · cases h
  · rw [List.cons_append, next?, ← List.cons_append, startsNumber_append_blank,
      numeral_append_blank]
    rw [next?] at h
    split
    · next hnumber =>
      rw [if_pos hnumber] at h
      cases h
      rfl
    · next hnumber =>
      rw [if_neg hnumber] at h
      dsimp only at h ⊢
      split
      · next hc =>
        rw [if_pos hc] at h
        cases h
        rw [takeWhile_append_blank hword, dropWhile_append_blank hword]
      · next hc =>
        rw [if_neg hc] at h
        obtain ⟨⟨s, left⟩, hs, heq⟩ := Option.map_eq_some_iff.1 h
        cases heq
        rw [symbol?_append_blank, hs]
        rfl

/-! ## Sources -/

theorem scanFrom_append {start : Nat} {cs more : List Char} {input input' : List Located}
    (h : scanFrom start cs = .ok input)
    (h' : scanFrom (start + cs.length + 1) more = .ok input') :
    scanFrom start (cs ++ ' ' :: more) = .ok (input ++ input') := by
  fun_induction scanFrom start cs generalizing input with
  | case1 start =>
    cases h
    rw [List.nil_append, scanFrom_blank rfl]
    exact h'
  | case2 start c rest hc ih =>
    rw [List.cons_append, scanFrom_blank hc]
    refine ih h ?_
    rw [List.length_cons] at h'
    rwa [Nat.add_right_comm start 1]
  | @case3 start c rest hc l rest' hnext stop found hfound ih =>
    cases h
    have hlength : start + (c :: rest).length = stop + rest'.length := by
      rw [← append_of_next? hnext, List.length_append, String.length_toList, Nat.add_assoc]
    refine scanFrom_of_next? (by simpa using hc) (next?_append_blank hnext more) (ih hfound ?_)
    rwa [hlength] at h'
  | case4 => cases h
  | case5 => cases h

/-- A source that goes on after a blank has the lexemes of both parts. -/
theorem exists_scan_append {source suffix : String} {input more : List Located}
    (h : scan source = .ok input) (h' : scan suffix = .ok more) :
    ∃ more', scan (source ++ " " ++ suffix) = .ok (input ++ more') ∧ Moved more more' := by
  obtain ⟨more', hmore', hmoved⟩ := exists_scanFrom h' (0 + source.toList.length + 1)
  refine ⟨more', ?_, hmoved⟩
  have htext : (source ++ " " ++ suffix).toList = source.toList ++ ' ' :: suffix.toList := by simp
  rw [scan, htext]
  exact scanFrom_append h hmore'

end RigExpr.Lexeme
